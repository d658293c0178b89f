import Mathlib.Data.List.Infix

/-!
# Scanning a table that shrinks

A scan goes through a table by index, and what it visits may leave the table, so
that the entries behind it move up. If the index stays, the scan goes on with
the next entry; if it moves on all the same, that entry is missed. `Scanned
visit entries seen left`: the scan has visited `seen`, and `left` is what the
table holds at its end.
-/

namespace Machine

/-- What becomes of an entry that the scan visits: where it leaves the table, the
index stays or moves on. -/
inductive Fate (β : Type)
  | kept (b : β)
  | removed
  | skipping

variable {β : Type} {visit : β → Fate β → Prop}

inductive Scanned (visit : β → Fate β → Prop) : (entries seen left : List β) → Prop
  | nil : Scanned visit [] [] []
  | kept : visit b (.kept b') → Scanned visit entries seen left →
      Scanned visit (b :: entries) (b :: seen) (b' :: left)
  | removed : visit b .removed → Scanned visit entries seen left →
      Scanned visit (b :: entries) (b :: seen) left
  | skipping : visit b .skipping → Scanned visit entries seen left →
      Scanned visit (b :: c :: entries) (b :: seen) (c :: left)
  | last : visit b .skipping → Scanned visit [b] [b] []

namespace Scanned

theorem sublist (h : Scanned visit entries seen left) : seen.Sublist entries := by
  induction h with
  | nil => exact .slnil
  | kept _ _ ih | removed _ _ ih => exact ih.cons_cons _
  | skipping _ _ ih => exact (ih.cons _).cons_cons _
  | last => exact .refl _

theorem all (h : Scanned visit entries seen left) (hnone : ∀ b ∈ entries, ¬ visit b .skipping) :
    seen = entries := by
  induction h with
  | nil => rfl
  | kept _ _ ih | removed _ _ ih =>
    rw [ih fun b hb => hnone b (List.mem_cons_of_mem _ hb)]
  | skipping hvisit | last hvisit => exact absurd hvisit (hnone _ (List.mem_cons_self ..))

/-- An entry is missed only directly behind one that the scan has removed, and
it stays in the table. -/
theorem missed (h : Scanned visit entries seen left) (hc : c ∈ entries) (hnot : c ∉ seen) :
    (∃ b, [b, c] <:+: entries ∧ b ∈ seen ∧ visit b .skipping) ∧ c ∈ left := by
  induction h with
  | nil => cases hc
  | @kept b b' entries seen left hvisit _ ih =>
    have hne := List.ne_of_not_mem_cons hnot
    have hnot := List.not_mem_of_not_mem_cons hnot
    obtain ⟨⟨b, hinfix, hb, hskip⟩, hleft⟩ := ih ((List.mem_cons.mp hc).resolve_left hne) hnot
    exact ⟨⟨b, hinfix.trans (List.suffix_cons ..).isInfix, List.mem_cons_of_mem _ hb, hskip⟩,
      List.mem_cons_of_mem _ hleft⟩
  | @removed b entries seen left hvisit _ ih =>
    have hne := List.ne_of_not_mem_cons hnot
    have hnot := List.not_mem_of_not_mem_cons hnot
    obtain ⟨⟨b, hinfix, hb, hskip⟩, hleft⟩ := ih ((List.mem_cons.mp hc).resolve_left hne) hnot
    exact ⟨⟨b, hinfix.trans (List.suffix_cons ..).isInfix, List.mem_cons_of_mem _ hb, hskip⟩,
      hleft⟩
  | @skipping b entries seen left c' hvisit _ ih =>
    have hne := List.ne_of_not_mem_cons hnot
    have hnot := List.not_mem_of_not_mem_cons hnot
    obtain rfl | hc := List.mem_cons.mp ((List.mem_cons.mp hc).resolve_left hne)
    · exact ⟨⟨b, (List.prefix_append [b, c] entries).isInfix, List.mem_cons_self .., hvisit⟩,
        List.mem_cons_self ..⟩
    · obtain ⟨⟨b, hinfix, hb, hskip⟩, hleft⟩ := ih hc hnot
      refine ⟨⟨b, hinfix.trans ?_, List.mem_cons_of_mem _ hb, hskip⟩, List.mem_cons_of_mem _ hleft⟩
      exact ((List.suffix_cons ..).trans (List.suffix_cons ..)).isInfix
  | last => exact absurd hc hnot

end Scanned

end Machine
