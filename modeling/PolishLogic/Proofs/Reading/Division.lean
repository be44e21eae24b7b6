import PolishLogic.Proofs.Reading.RoundTrip
import PolishLogic.Proofs.Reading.Verdict

/-! # How a text is divided

Nothing but the text itself can be read from its end: a part at the end of an accepted text is
not accepted (`Formula.suffix_eq_self`). So a text of more than one character has one division
into its last connective and the operands of it, and this is the division of its tree
(`Tree.divided_of_parse`). -/

namespace PolishLogic

/-- The text is read as a tree, whatever the level and the store are. -/
def Accepted (text : String) : Prop :=
  ∀ (level : Level) (store : Store), ∃ t final,
    (Tree.parse level store (.text text)).result = .ok (t, final)

/-- The text is not read as a tree, whatever the level and the store are. -/
def Refused (text : String) : Prop :=
  ∀ (level : Level) (store : Store), ∃ e,
    (Tree.parse level store (.text text)).result = .error e

/-- What the division of a text that is read as a tree into its last connective and the operands
of it comes to. -/
structure Divided (text : String) (t : Tree) : Prop where
  suffix : ∀ u v, u ≠ "" → text = u ++ v → Refused v
  last : 2 ≤ text.length → ∃ (body : String) (op : Connective),
    text = body ++ op.symbol.toString
  negation : ∀ body, text = body ++ "!" → Accepted body ∧
    ∀ {level store s final}, (Tree.parse level store (.text body)).result = .ok (s, final) →
      t.root.alike s.root.neg = true
  binary : ∀ (body : String) (op : Connective), op ≠ .not → text = body ++ op.symbol.toString →
    ∃ u v, body = u ++ v ∧ Accepted u ∧ Accepted v ∧
      (∀ u' v', body = u' ++ v' → u' ≠ u → Refused u' ∨ Refused v') ∧
      ∀ {level level' store store' l r final final'},
        (Tree.parse level store (.text u)).result = .ok (l, final) →
        (Tree.parse level' store' (.text v)).result = .ok (r, final') →
        t.root.alike (.binary op l.root r.root) = true

namespace Symbol

theorem spell_injective {v w : List (Symbol Letter)} (h : spell v = spell w) : v = w := by
  have hchars := congrArg String.toList h
  rw [toList_spell, toList_spell] at hchars
  exact List.map_injective_iff.mpr (fun _ _ => char_injective) hchars

theorem length_spell (w : List (Symbol Letter)) : (spell w).length = w.length := by
  rw [← String.length_toList, toList_spell, List.length_map]

/-- A text written with symbols can be cut only between two of them. -/
theorem spell_eq_append {w : List (Symbol Letter)} {u v : String} (h : spell w = u ++ v) :
    ∃ w₁ w₂, w = w₁ ++ w₂ ∧ spell w₁ = u ∧ spell w₂ = v := by
  have hchars := congrArg String.toList h
  rw [toList_spell, String.toList_append, List.map_eq_append_iff] at hchars
  obtain ⟨w₁, w₂, hw, h₁, h₂⟩ := hchars
  rw [← toList_spell, String.toList_inj] at h₁ h₂
  exact ⟨w₁, w₂, hw, h₁, h₂⟩

theorem spell_eq_append_symbol {w : List (Symbol Letter)} {body : String} {op : Connective}
    (h : spell w = body ++ op.symbol.toString) : ∃ v, w = v ++ [.op op] ∧ spell v = body := by
  obtain ⟨v, w', rfl, hv, hw'⟩ := spell_eq_append h
  obtain rfl : w' = [.op op] := spell_injective hw'
  exact ⟨v, rfl, hv⟩

end Symbol

section acceptance

variable {text : String}

/-- Neither the level nor the store has a part in what is accepted. -/
theorem accepted_iff : Accepted text ↔ ∃ f : Formula Letter, Formula.ofText? text = .ok f := by
  constructor
  · intro h
    obtain ⟨t, final, ht⟩ := h .info .empty
    obtain ⟨f, hf, -⟩ := Tree.exists_read_of_parse ht
    exact ⟨f, hf⟩
  · rintro ⟨f, hf⟩ level store
    have hread : Source.read (.text text) = .ok f := hf
    obtain ⟨t, final, ht, -⟩ := Tree.exists_parse hread level store
    exact ⟨t, final, ht⟩

/-- There is an error for every text that is not accepted. -/
theorem refused_iff : Refused text ↔ ¬ Accepted text := by
  constructor
  · intro h hacc
    obtain ⟨e, he⟩ := h .info .empty
    obtain ⟨t, final, ht⟩ := hacc .info .empty
    rw [he] at ht
    cases ht
  · intro h level store
    cases hr : (Tree.parse level store (.text text)).result with
    | error e => exact ⟨e, rfl⟩
    | ok p =>
      obtain ⟨t, final⟩ := p
      obtain ⟨f, hf, -⟩ := Tree.exists_read_of_parse hr
      exact absurd (accepted_iff.mpr ⟨f, hf⟩) h

end acceptance

namespace Formula

open OperandStack

variable {f g : Formula Letter}

/-- An operand at the end of a text that is read as one operand is the whole text. -/
theorem suffix_eq_self {u v : String} (h : ofText? (u ++ v) = .ok f) (hv : ofText? v = .ok g) :
    u = "" := by
  obtain ⟨w, hw, hreads⟩ := reads_of_ofText? h
  obtain ⟨w', hw', hreads'⟩ := reads_of_ofText? hv
  obtain ⟨w₁, w₂, rfl, rfl, h₂⟩ := Symbol.spell_eq_append hw
  obtain rfl : w₂ = w' := Symbol.spell_injective (h₂.trans hw'.symm)
  obtain ⟨mid, hmid, hrest⟩ := reads_append.mp hreads
  -- Both readings of the end add one operand, so the beginning has left none for it.
  have hlen := hrest.length_eq
  have hlen' := hreads'.length_eq
  simp only [List.length_cons, List.length_nil] at hlen hlen'
  have hnil : mid = [] := List.length_eq_zero_iff.mp (by omega)
  by_contra hne
  refine hmid.ne_nil ?_ hnil
  rintro rfl
  exact hne rfl

/-- What a formula is whose written form ends with a connective. -/
theorem eq_of_render_append (hf : f.Intact) {body : String} {op : Connective}
    (h : f.render = .ok (body ++ op.symbol.toString)) :
    (op = .not ∧ ∃ c : Formula Letter, f = c.neg ∧ c.render = .ok body) ∨
    (op ≠ .not ∧ ∃ (l r : Formula Letter) (u v : String), f = binary op l r ∧
      l.render = .ok u ∧ r.render = .ok v ∧ body = u ++ v) := by
  obtain ⟨w, hw, hspell⟩ := render_eq_ok.mp h
  obtain ⟨w, rfl, rfl⟩ := Symbol.spell_eq_append_symbol hspell
  cases f with
  | hole => exact hf.elim
  | const | var =>
    have hlast := congrArg List.getLast? (Option.some.inj hw)
    rw [List.getLast?_concat] at hlast
    cases hlast
  | unary op' c =>
    obtain ⟨v, hv, happend⟩ := postorder_unary_eq_some.mp hw
    obtain ⟨rfl, hop⟩ := List.append_inj' happend rfl
    cases hop
    obtain ⟨rfl, -⟩ := hf
    exact .inl ⟨rfl, c, rfl, render_eq_ok.mpr ⟨w, hv, rfl⟩⟩
  | binary op' l r =>
    obtain ⟨w₁, w₂, hl, hr, happend⟩ := postorder_binary_eq_some.mp hw
    obtain ⟨rfl, hop⟩ := List.append_inj' happend rfl
    cases hop
    refine .inr ⟨hf.1, l, r, _, _, rfl, render_eq_ok.mpr ⟨w₁, hl, rfl⟩,
      render_eq_ok.mpr ⟨w₂, hr, rfl⟩, spell_append _ _⟩

/-- Only single characters end with anything else than a connective. -/
theorem exists_last_connective (hf : f.Intact) {text : String} (h : f.render = .ok text)
    (hlen : 2 ≤ text.length) :
    ∃ (body : String) (op : Connective), text = body ++ op.symbol.toString := by
  obtain ⟨w, hw, rfl⟩ := render_eq_ok.mp h
  rw [Symbol.length_spell] at hlen
  cases f with
  | hole => exact hf.elim
  | const | var =>
    cases hw
    exact absurd hlen (Nat.lt_irrefl 1)
  | unary op c =>
    obtain ⟨v, -, rfl⟩ := postorder_unary_eq_some.mp hw
    exact ⟨_, op, spell_append _ _⟩
  | binary op l r =>
    obtain ⟨u, v, -, -, rfl⟩ := postorder_binary_eq_some.mp hw
    exact ⟨_, op, spell_append _ _⟩

/-- Two accepted texts one after the other fall apart in one way. -/
theorem append_unique {u v u' v' : String} {l r l' r' : Formula Letter}
    (hl : ofText? u = .ok l) (hr : ofText? v = .ok r) (hl' : ofText? u' = .ok l')
    (hr' : ofText? v' = .ok r') (h : u ++ v = u' ++ v') : u = u' ∧ v = v' := by
  obtain ⟨hli, hlu⟩ := ofText?_eq_ok.mp hl
  obtain ⟨hri, hrv⟩ := ofText?_eq_ok.mp hr
  obtain ⟨hli', hlu'⟩ := ofText?_eq_ok.mp hl'
  obtain ⟨hri', hrv'⟩ := ofText?_eq_ok.mp hr'
  -- A connective behind both makes one text of them, which is read in one way only.
  have hread : ofText? (u ++ v ++ "&") = .ok (conj l r) :=
    ofText?_eq_ok.mpr ⟨⟨nofun, hli, hri⟩, render_binary hlu hrv .and⟩
  have hread' : ofText? (u' ++ v' ++ "&") = .ok (conj l' r') :=
    ofText?_eq_ok.mpr ⟨⟨nofun, hli', hri'⟩, render_binary hlu' hrv' .and⟩
  rw [h, hread'] at hread
  obtain ⟨-, rfl, rfl⟩ := Formula.binary.inj (Except.ok.inj hread)
  exact ⟨Except.ok.inj (hlu.symm.trans hlu'), Except.ok.inj (hrv.symm.trans hrv')⟩

end Formula

namespace Tree

theorem map_name_of_parse {text : String} {f : Formula Letter} {level : Level}
    {store final : Store} {t : Tree} (hf : Formula.ofText? text = .ok f)
    (h : (parse level store (.text text)).result = .ok (t, final)) :
    t.root.map Named.name = f.map Named.name := by
  obtain ⟨g, hg, hname⟩ := exists_read_of_parse h
  rw [show g = f from Except.ok.inj (hg.symm.trans hf)] at hname
  exact hname

/-- A text that is read as a tree has no accepted part at its end but itself. Before its last
connective there are one or two accepted texts, which fall apart in one way, and the tree is
put together from theirs. -/
theorem divided_of_parse {level : Level} {store final : Store} {text : String} {t : Tree}
    (h : (parse level store (.text text)).result = .ok (t, final)) : Divided text t := by
  obtain ⟨f, hread, hname⟩ := exists_read_of_parse h
  obtain ⟨hf, hrender⟩ := Formula.ofText?_eq_ok.mp hread
  constructor
  case suffix =>
    intro u v hu htext
    refine refused_iff.mpr fun hv => hu ?_
    obtain ⟨g, hg⟩ := accepted_iff.mp hv
    rw [htext] at hread
    exact Formula.suffix_eq_self hread hg
  case last => exact Formula.exists_last_connective hf hrender
  case negation =>
    intro body htext
    have hnot : f.render = .ok (body ++ Connective.not.symbol.toString) := htext ▸ hrender
    obtain ⟨-, c, rfl, hc⟩ | ⟨hne, -⟩ := Formula.eq_of_render_append hf hnot
    · have hbody : Formula.ofText? body = .ok c := Formula.ofText?_eq_ok.mpr ⟨hf.2, hc⟩
      refine ⟨accepted_iff.mpr ⟨c, hbody⟩, fun hs => ?_⟩
      have hsname := map_name_of_parse hbody hs
      rw [Formula.alike, hname, beq_iff_eq]
      exact congrArg Formula.neg hsname.symm
    · exact absurd rfl hne
  case binary =>
    intro body op hop htext
    rw [htext] at hrender
    obtain ⟨hnot, -⟩ | ⟨-, l, r, u, v, rfl, hl, hr, rfl⟩ :=
      Formula.eq_of_render_append hf hrender
    · exact absurd hnot hop
    have hu : Formula.ofText? u = .ok l := Formula.ofText?_eq_ok.mpr ⟨hf.2.1, hl⟩
    have hv : Formula.ofText? v = .ok r := Formula.ofText?_eq_ok.mpr ⟨hf.2.2, hr⟩
    have haccu : Accepted u := accepted_iff.mpr ⟨l, hu⟩
    have haccv : Accepted v := accepted_iff.mpr ⟨r, hv⟩
    refine ⟨u, v, rfl, haccu, haccv, fun u' v' hsplit hne => ?_, fun hlt hrt => ?_⟩
    · rw [refused_iff, refused_iff, ← not_and_or]
      rintro ⟨hu', hv'⟩
      obtain ⟨l', hl'⟩ := accepted_iff.mp hu'
      obtain ⟨r', hr'⟩ := accepted_iff.mp hv'
      exact hne (Formula.append_unique hu hv hl' hr' hsplit).1.symm
    · have hlname := map_name_of_parse hu hlt
      have hrname := map_name_of_parse hv hrt
      rw [Formula.alike, hname, beq_iff_eq, Formula.map, Formula.map, hlname, hrname]

/-- A negation, whose body is accepted, and a connective between operands of different lengths. -/
theorem divided_of_parse_negation_and_xnor :
    (let p := ofFormula (.neg (.binary .xor (.var ⟨0⟩) (.var ⟨1⟩))) .empty
     (parse .info .empty (.text "AB^!")).result = .ok p ∧ Divided "AB^!" p.1 ∧
      Refused "B^!" ∧ Accepted "AB^") ∧
    (let f := Formula.binary .xnor (.binary .xor (.var ⟨0⟩) (.var ⟨1⟩)) (.neg (.const true))
     let p := ofFormula f .empty
     (parse .debug .empty (.text "AB^1!=")).result = .ok p ∧ Divided "AB^1!=" p.1 ∧
      Refused "1!=") := by
  constructor
  · intro p
    have hparse : (parse .info .empty (.text "AB^!")).result = .ok p := rfl
    have hdivided : Divided "AB^!" p.1 := divided_of_parse hparse
    exact ⟨hparse, hdivided, hdivided.suffix "A" "B^!" (by decide) rfl,
      (hdivided.negation "AB^" rfl).1⟩
  · intro f p
    have hparse : (parse .debug .empty (.text "AB^1!=")).result = .ok p := rfl
    have hdivided : Divided "AB^1!=" p.1 := divided_of_parse hparse
    exact ⟨hparse, hdivided, hdivided.suffix "AB^" "1!=" (by decide) rfl⟩

end Tree
end PolishLogic
