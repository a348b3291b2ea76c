import CoolCompiler.Proofs.Import.Reach

/-!
# The body of a file

Directives stand before the first class of a file, but expansion looks for them in every line.  So
it keeps what follows exactly when no line there has the form of a directive.
-/

namespace CoolCompiler

open List Text

namespace Directive

def OpensClass (line : Text) : Prop :=
  lower ((trim line).take 5) = "class"

instance (line : Text) : Decidable (OpensClass line) :=
  inferInstanceAs (Decidable (_ = _))

def leads : List Text := ["import ", "import\"", "module "]

def StartsDirective (line : Text) : Prop :=
  ∃ lead ∈ leads, lead <+: trim line

instance (line : Text) : Decidable (StartsDirective line) :=
  inferInstanceAs (Decidable (∃ lead ∈ leads, lead <+: trim line))

theorem ofLine?_eq_none_iff (line : Text) : ofLine? line = none ↔ ¬ StartsDirective line := by
  have hstarts : StartsDirective line ↔
      (("import " : Text) <+: trim line ∨ ("import\"" : Text) <+: trim line) ∨
        ("module " : Text) <+: trim line := by
    simp [StartsDirective, leads, or_assoc]
  -- what begins with either form of the first word begins with the word
  have hword (h : ("import " : Text) <+: trim line ∨ ("import\"" : Text) <+: trim line) :
      ("import" : Text) <+: trim line := by
    rcases h with h | h
    · exact List.IsPrefix.trans (by decide +kernel) h
    · exact List.IsPrefix.trans (by decide +kernel) h
  simp only [ofLine?, Bool.or_eq_true, isPrefixOf_iff_prefix]
  split
  · next h => simp [after?, hword h, hstarts.mpr (.inl h)]
  · next h =>
    split
    · next hmodule => simp [hstarts.mpr (.inr hmodule)]
    · next hmodule => exact iff_of_true rfl fun hline => (hstarts.mp hline).elim h hmodule

theorem not_startsDirective_of_opensClass {line : Text} (h : OpensClass line) :
    ¬ StartsDirective line := by
  rintro ⟨lead, hlead, rest, hrest⟩
  have hother : ∀ lead ∈ leads, 5 ≤ lead.length ∧ lower (lead.take 5) ≠ "class" := by
    decide +kernel
  obtain ⟨hlength, hlower⟩ := hother lead hlead
  rw [OpensClass, ← hrest, take_append_of_le_length hlength] at h
  exact hlower h

theorem ofLine?_nil : ofLine? [] = none := by decide +kernel

theorem blanked_eq_self_iff (line : Text) : blanked line = line ↔ ofLine? line = none := by
  unfold blanked
  split
  · next hsome =>
    constructor
    · rintro rfl
      exact ofLine?_nil
    · intro hnone
      rw [hnone] at hsome
      cases hsome
  · next hnone => simpa using hnone

theorem map_blanked_eq_self_iff (lines : List Text) :
    lines.map blanked = lines ↔ ∀ line ∈ lines, ofLine? line = none := by
  have hmap := map_inj_left (l := lines) (f := blanked) (g := id)
  simpa [blanked_eq_self_iff] using hmap

end Directive

namespace Import

theorem asked_of_plain {t : FileTree} {path line : Text} (h : Directive.ofLine? line = none) :
    asked t path line = none :=
  asked_eq_none_iff.mpr (by simp [h])

theorem Search.of_head {t : FileTree} {path contents : Text} {head body : List Text}
    {out : Outcome} {seen : List (List Text)} (hlines : contents.lines = head ++ body)
    (h : Search t path 1 seen head out) :
    Search t path 1 seen (Text.lines (join [10] head)) out := by
  cases head with
  | nil =>
    have hplain : ∀ line ∈ [([] : Text)], asked t path line = none := by
      intro line hline
      rw [mem_singleton.mp hline]
      exact asked_of_plain Directive.ofLine?_nil
    exact h.append_plain hplain
  | cons line head =>
    have hfree : ∀ part ∈ line :: head, (10 : UInt8) ∉ part := by
      intro part hpart
      apply not_mem_of_mem_splitAt (t := contents)
      show part ∈ contents.lines
      rw [hlines]
      exact mem_append_left body hpart
    rw [Text.lines, splitAt_join (cons_ne_nil line head) hfree]
    exact h

theorem getLast?_expand {t : FileTree} {path contents : Text} {sources : List Source}
    (h : expand t path contents = .ok sources) :
    sources.getLast? = some (Source.mk path contents).blanked := by
  obtain ⟨out, hsearch, _⟩ := exists_search t path 1 [Path.key path] contents.lines
  rw [hsearch.expand_eq] at h
  cases out with
  | error fault => cases h
  | ok found =>
    cases h
    simp

/-- Where the imports of the head of a file can be expanded and a class follows the head, the
file is expanded to the same sources, itself apart, and its lines from the class on stay as they
are and where they are, exactly when none of them begins like a directive. -/
theorem expand_keeps_body_iff (t : FileTree) (path contents first : Text) (head rest : List Text)
    (sources : List Source) (hlines : contents.lines = head ++ first :: rest)
    (hclass : Directive.OpensClass first)
    (hhead : expand t path (Text.join [10] head) = .ok sources) :
    (∃ text, expand t path contents = .ok (sources.dropLast ++ [⟨path, text⟩]) ∧
        Text.lines text = head.map Directive.blanked ++ first :: rest) ↔
      ∀ line ∈ rest, ¬ Directive.StartsDirective line := by
  have hfirst : Directive.ofLine? first = none :=
    (Directive.ofLine?_eq_none_iff first).mpr (Directive.not_startsDirective_of_opensClass hclass)
  simp only [← Directive.ofLine?_eq_none_iff]
  have htext : Text.lines (Source.mk path contents).blanked.text =
      head.map Directive.blanked ++ first :: rest.map Directive.blanked := by
    rw [lines_blanked, hlines, map_append, map_cons,
      (Directive.blanked_eq_self_iff first).mpr hfirst]
  constructor
  · rintro ⟨text, hexpand, hkept⟩ line hline
    have hlast := getLast?_expand hexpand
    rw [getLast?_concat, Option.some.injEq] at hlast
    rw [← hlast, hkept] at htext
    have hrest := (List.cons.inj (append_cancel_left htext)).2
    exact (Directive.map_blanked_eq_self_iff rest).mp hrest.symm line hline
  · intro hplain
    have hkept := (Directive.map_blanked_eq_self_iff rest).mpr hplain
    rcases exists_search t path 1 [Path.key path] head with ⟨out, hsearch, _⟩
    have hbody : ∀ line ∈ first :: rest, asked t path line = none := by
      intro line hline
      rcases mem_cons.mp hline with rfl | hline
      · exact asked_of_plain hfirst
      · exact asked_of_plain (hplain line hline)
    have hwhole : Search t path 1 [Path.key path] contents.lines out := by
      rw [hlines]
      exact hsearch.append_plain hbody
    rw [(hsearch.of_head hlines).expand_eq] at hhead
    cases out with
    | error fault => cases hhead
    | ok found =>
      cases hhead
      refine ⟨(Source.mk path contents).blanked.text, ?_, ?_⟩
      · rw [hwhole.expand_eq]
        simp [Except.map, Source.blanked]
      · rw [htext, hkept]

def listFile : Source := ⟨"list.cool", "module list\nclass List \x7b\x7d;"⟩

def listTree : FileTree := ⟨[(["list.cool"], listFile.text)], [[]]⟩

def listHead : List Text := ["import \"list\";", ""]

def listClass : Text := "class Main \x7b"

def listRest : List Text := ["  list : List", "\x7d;"]

def listUser : Text := join [10] (listHead ++ listClass :: listRest)

theorem expand_keeps_body_iff_list :
    ∃ text, expand listTree "main.cool" listUser = .ok [listFile.blanked, ⟨"main.cool", text⟩] ∧
      Text.lines text = [[], []] ++ listClass :: listRest := by
  let seen : List (List Text) := [["list.cool"], ["main.cool"]]
  have hinside : Search listTree listFile.path 1 seen listFile.text.lines (.ok ([], seen)) :=
    Search.done.append_plain (by decide +kernel)
  have hsearch : Search listTree "main.cool" 1 [Path.key "main.cool"] listHead
      (.ok ([listFile], seen)) := by
    have hfound : asked listTree "main.cool" "import \"list\";" = some (.ok listFile) := by
      decide +kernel
    have hlater : Search listTree "main.cool" 2 seen [[]] (.ok ([], seen)) :=
      .pass (by decide +kernel) .done
    have hentered := Search.entered (n := 1) hfound (by decide +kernel) hinside hlater
    exact hentered
  have hlines : listUser.lines = listHead ++ listClass :: listRest := by decide +kernel
  have hhead := (hsearch.of_head hlines).expand_eq
  have hblank : listHead.map Directive.blanked = [[], []] := by decide +kernel
  rw [← hblank]
  exact (expand_keeps_body_iff listTree "main.cool" listUser listClass listHead listRest _
    hlines (by decide +kernel) hhead).mpr (by decide +kernel)

def moduleClass : Text :=
  "class Main \x7b\n  module : Int <- 0;\n  main() : Object \x7b 0 \x7d;\n\x7d;\n"

theorem expand_blanks_attribute :
    Directive.OpensClass "class Main \x7b" ∧
      moduleClass.lines[0]? = some (Text.ofString "class Main \x7b") ∧
      moduleClass.lines[1]? = some (Text.ofString "  module : Int <- 0;") ∧
      expand FileTree.empty "main.cool" moduleClass =
        .ok [⟨"main.cool", "class Main \x7b\n\n  main() : Object \x7b 0 \x7d;\n\x7d;\n"⟩] := by
  have hsearch : Search FileTree.empty "main.cool" 1 [Path.key "main.cool"] moduleClass.lines
      (.ok ([], [Path.key "main.cool"])) :=
    Search.done.append_plain (by decide +kernel)
  refine ⟨by decide +kernel, by decide +kernel, by decide +kernel, ?_⟩
  rw [hsearch.expand_eq]
  decide +kernel

end Import
end CoolCompiler
