import Mathlib.Data.List.TakeWhile
import PolishLogic.Proofs.Reading.Division
import PolishLogic.Text.Blank

/-! # Texts between blanks

`Surrounds` says which part of a text is left when the blanks at both ends are taken off: every text
with a character that is not blank has such a part (`exists_surrounds`), and it is what `trim` gives
(`trim_of_surrounds`). No character of the alphabet is blank, so that an accepted text between
blanks is the part that is left (`surrounds_of_accepted`), whatever the line ends among the blanks
are (`unifyLineEnds_of_accepted`). -/

namespace PolishLogic

/-- The first and the last text consist of blanks, and the one between them begins and ends with
characters that are not blank. -/
structure Surrounds (before after core : List Char) : Prop where
  before : ∀ c ∈ before, isBlank c = true
  after : ∀ c ∈ after, isBlank c = true
  head : ∃ c, core.head? = some c ∧ isBlank c = false
  last : ∃ c, core.getLast? = some c ∧ isBlank c = false

namespace Surrounds

variable {before after core : List Char}

theorem ne_nil (h : Surrounds before after core) : core ≠ [] := by
  rintro rfl
  obtain ⟨c, hc, -⟩ := h.head
  cases hc

end Surrounds

section trim

variable {cs u v : List Char}

theorem dropWhile_isBlank_append (hu : ∀ c ∈ u, isBlank c = true) {c : Char}
    (hv : v.head? = some c) (hc : isBlank c = false) : (u ++ v).dropWhile isBlank = v := by
  obtain ⟨v, rfl⟩ := List.head?_eq_some_iff.mp hv
  rw [List.dropWhile_append_of_pos hu, List.dropWhile_cons_of_neg (by simp [hc])]

/-- Blanks are removed at both ends and nowhere else. -/
theorem trim_of_surrounds {before after core : List Char} (h : Surrounds before after core) :
    trim (before ++ core ++ after) = core := by
  obtain ⟨c, hhead, hc⟩ := h.head
  obtain ⟨d, hlast, hd⟩ := h.last
  have hafter : ∀ c ∈ after.reverse, isBlank c = true :=
    fun c hc => h.after c (List.mem_reverse.mp hc)
  rw [trim, List.append_assoc, dropWhile_isBlank_append h.before (by simp [hhead]) hc,
    List.reverse_append,
    dropWhile_isBlank_append hafter (by rw [List.head?_reverse, hlast]) hd, List.reverse_reverse]

theorem exists_blanks_before (h : ∃ c ∈ cs, isBlank c = false) :
    ∃ u v, cs = u ++ v ∧ (∀ c ∈ u, isBlank c = true) ∧
      ∃ c, v.head? = some c ∧ isBlank c = false := by
  have hne : cs.dropWhile isBlank ≠ [] := by
    intro hnil
    obtain ⟨c, hmem, hc⟩ := h
    rw [List.dropWhile_eq_nil_iff.mp hnil c hmem] at hc
    cases hc
  exact ⟨_, _, List.takeWhile_append_dropWhile.symm, fun c => List.mem_takeWhile_imp,
    _, List.head?_eq_some_head hne, List.head_dropWhile_not isBlank hne⟩

/-- A text that is not blank can be cut into blanks, the part between them, and blanks. -/
theorem exists_surrounds (h : ∃ c ∈ cs, isBlank c = false) :
    ∃ before core after, cs = before ++ core ++ after ∧ Surrounds before after core := by
  obtain ⟨before, rest, rfl, hbefore, c, hhead, hc⟩ := exists_blanks_before h
  -- The blanks at the end are those at the beginning of the reversed rest.
  have hnonblank : ∃ c ∈ rest.reverse, isBlank c = false :=
    ⟨c, List.mem_reverse.mpr (List.mem_of_head? hhead), hc⟩
  obtain ⟨u, v, hrev, hu, d, hlast, hd⟩ := exists_blanks_before hnonblank
  have hrest : rest = v.reverse ++ u.reverse := by
    rw [← List.reverse_append, ← hrev, List.reverse_reverse]
  have hne : v.reverse ≠ [] := by
    intro hnil
    rw [List.reverse_eq_nil_iff.mp hnil] at hlast
    cases hlast
  rw [hrest, List.head?_append_of_ne_nil _ hne] at hhead
  refine ⟨before, v.reverse, u.reverse, by rw [hrest, List.append_assoc], hbefore,
    fun c hc => hu c (List.mem_reverse.mp hc), ⟨c, hhead, hc⟩, d, ?_, hd⟩
  rw [List.getLast?_reverse, hlast]

end trim

/-! ## Line ends -/

theorem unifyLineEnds_append {u v : List Char} {c : Char} (hc : c ≠ '\n') :
    unifyLineEnds (u ++ c :: v) = unifyLineEnds u ++ unifyLineEnds (c :: v) := by
  fun_induction unifyLineEnds u with
  | case1 => rfl
  | case2 u ih => simp [unifyLineEnds, ih]
  | case3 d u hd ih =>
    rw [List.cons_append, unifyLineEnds, ih, List.cons_append]
    intro u' hdr hu'
    cases u with
    | nil => exact hc (List.cons.inj hu').1
    | cons d' u =>
      obtain ⟨rfl, -⟩ := List.cons.inj hu'
      exact hd u hdr rfl

theorem unifyLineEnds_of_no_return {s v : List Char} (h : ∀ c ∈ s, c ≠ '\r') :
    unifyLineEnds (s ++ v) = s ++ unifyLineEnds v := by
  induction s with
  | nil => rfl
  | cons c s ih =>
    obtain ⟨hc, hs⟩ := List.forall_mem_cons.mp h
    rw [List.cons_append, unifyLineEnds, if_neg hc, ih hs, List.cons_append]
    intro u hcr
    exact absurd hcr hc

theorem isBlank_of_mem_unifyLineEnds {cs : List Char} (h : ∀ c ∈ cs, isBlank c = true) :
    ∀ c ∈ unifyLineEnds cs, isBlank c = true := by
  fun_induction unifyLineEnds cs with
  | case1 => nofun
  | case2 cs ih =>
    obtain ⟨-, -, hcs⟩ : _ ∧ _ ∧ ∀ c ∈ cs, isBlank c = true := by
      simpa only [List.forall_mem_cons] using h
    exact List.forall_mem_cons.mpr ⟨rfl, ih hcs⟩
  | case3 d cs hd ih =>
    obtain ⟨hblank, hcs⟩ := List.forall_mem_cons.mp h
    refine List.forall_mem_cons.mpr ⟨?_, ih hcs⟩
    split
    · rfl
    · exact hblank

/-! ## Blanks and the alphabet -/

theorem Symbol.isBlank_char (s : Symbol Letter) : isBlank s.char = false := by
  cases s with
  | const b => cases b <;> rfl
  | leaf l =>
    obtain ⟨i⟩ := l
    revert i
    decide
  | op c => cases c <;> rfl

theorem contains_of_isBlank {c : Char} (h : isBlank c = true) : Alphabet.contains c = false := by
  rw [← Bool.not_eq_true, Alphabet.contains_iff]
  rintro ⟨s, rfl⟩
  rw [s.isBlank_char] at h
  cases h

section accepted

variable {s : String} (h : Accepted s)

include h

/-- An accepted text consists of symbols, and there is at least one. -/
theorem Accepted.exists_word :
    ∃ w : List (Symbol Letter), w ≠ [] ∧ s.toList = w.map Symbol.char := by
  obtain ⟨f, hf⟩ := accepted_iff.mp h
  obtain ⟨w, rfl, -⟩ := Formula.reads_of_ofText? hf
  refine ⟨w, ?_, Symbol.toList_spell w⟩
  rintro rfl
  cases hf

theorem Accepted.exists_symbol {c : Char} (hc : c ∈ s.toList) :
    ∃ t : Symbol Letter, c = t.char := by
  obtain ⟨w, -, hw⟩ := h.exists_word
  rw [hw, List.mem_map] at hc
  obtain ⟨t, -, rfl⟩ := hc
  exact ⟨t, rfl⟩

theorem Accepted.isBlank_of_mem {c : Char} (hc : c ∈ s.toList) : isBlank c = false := by
  obtain ⟨t, rfl⟩ := h.exists_symbol hc
  exact t.isBlank_char

theorem Accepted.head?_ne {c : Char} (hc : Alphabet.contains c = false) :
    s.toList.head? ≠ some c := by
  intro hhead
  rw [Alphabet.contains_iff.mpr (h.exists_symbol (List.mem_of_head? hhead))] at hc
  cases hc

theorem Accepted.toList_ne_nil : s.toList ≠ [] := by
  obtain ⟨w, hne, hw⟩ := h.exists_word
  rw [hw]
  exact fun hnil => hne (List.map_eq_nil_iff.mp hnil)

/-- An accepted text is all that is left between blanks. -/
theorem surrounds_of_accepted {before after : List Char} (hbefore : ∀ c ∈ before, isBlank c = true)
    (hafter : ∀ c ∈ after, isBlank c = true) : Surrounds before after s.toList := by
  have hne := h.toList_ne_nil
  exact ⟨hbefore, hafter,
    ⟨_, List.head?_eq_some_head hne, h.isBlank_of_mem (List.head_mem hne)⟩,
    ⟨_, List.getLast?_eq_some_getLast hne, h.isBlank_of_mem (List.getLast_mem hne)⟩⟩

/-- Only the blanks around an accepted text can have line ends. -/
theorem unifyLineEnds_of_accepted (u v : List Char) :
    unifyLineEnds (u ++ s.toList ++ v) = unifyLineEnds u ++ s.toList ++ unifyLineEnds v := by
  have hnot : ∀ d, isBlank d = true → ∀ c ∈ s.toList, c ≠ d := by
    rintro d hd c hc rfl
    rw [h.isBlank_of_mem hc] at hd
    cases hd
  have hs := unifyLineEnds_of_no_return (v := v) (hnot '\r' rfl)
  obtain ⟨c, cs, hcs⟩ := List.exists_cons_of_ne_nil h.toList_ne_nil
  rw [List.append_assoc, List.append_assoc, ← hs, hcs, List.cons_append,
    unifyLineEnds_append (hnot '\n' rfl c (by simp [hcs]))]

end accepted

end PolishLogic
