import PolishLogic.Proofs.Reading.RoundTrip
import PolishLogic.Proofs.Reading.Verdict

/-! # Written normal forms

What conversion from text to text comes to. It fails where reading fails and with the same
error. Otherwise its result is the written form of the positive polar form of what is read
(`Tree.normalForm_of_read`), and `Converts` lists what is known of it
(`Tree.parse_normalForm`).

`NormalText` looks at neighbouring characters only. A tree is in normal form exactly when the
text it was read from is (`Tree.isNnf_root_iff_normalText`). -/

namespace PolishLogic

/-- No connective is one that a normal form expands, and every negation comes immediately after
an operand. -/
structure NormalText (text : String) : Prop where
  connectives : '^' ∉ text.toList ∧ '=' ∉ text.toList ∧ '>' ∉ text.toList
  negations : ∀ u v, text.toList = u ++ '!' :: v →
    ∃ c, u.getLast? = some c ∧ Alphabet.isOperand c = true

/-- The text `r` is what an accepted text is converted to: a text in normal form with the same
letters, read as the tree the source is converted to, and converted to itself. -/
structure Converts (text r : String) : Prop where
  result : ∀ level : Level, (normalForm level (.text text)).result = .ok r
  read : ∀ (level₁ level₂ : Level) (store₁ store₂ : Store), ∃ s t final₁ final₂,
    (Tree.parseNnf level₁ store₁ (.text text)).result = .ok (s, final₁) ∧
      (Tree.parse level₂ store₂ (.text r)).result = .ok (t, final₂) ∧
      t.root.alike s.root = true ∧ s.Fits
  normal : NormalText r
  letters : ∀ l : Letter, l.char ∈ r.toList ↔ l.char ∈ text.toList
  fixed : ∀ level : Level, (normalForm level (.text r)).result = .ok r

namespace Symbol

theorem char_mem_iff {s : Symbol Letter} {w : List (Symbol Letter)} :
    s.char ∈ (spell w).toList ↔ s ∈ w := by
  rw [toList_spell, List.mem_map]
  constructor
  · rintro ⟨t, ht, hchar⟩
    rw [← char_injective hchar]
    exact ht
  · exact fun h => ⟨s, h, rfl⟩

theorem isOperand_char (s : Symbol Letter) : Alphabet.isOperand s.char = s.isOperand := by
  cases s with
  | const b => cases b <;> rfl
  | leaf l => exact (Alphabet.of_letter l).1
  | op c => cases c <;> rfl

end Symbol

theorem NormalWord.text {w : List (Symbol Letter)} (h : NormalWord w) :
    NormalText (Symbol.spell w) := by
  have hnot : ∀ c : Connective, (Symbol.op c : Symbol Letter).isNormal = false →
      c.symbol ∉ (Symbol.spell w).toList := by
    intro c hc hmem
    have hw : Symbol.op c ∈ w := Symbol.char_mem_iff.mp hmem
    rw [h.normal _ hw] at hc
    cases hc
  refine ⟨⟨hnot .xor rfl, hnot .xnor rfl, hnot .imply rfl⟩, fun u v huv => ?_⟩
  rw [Symbol.toList_spell, List.map_eq_append_iff] at huv
  obtain ⟨w₁, w₂, rfl, rfl, hw₂⟩ := huv
  obtain ⟨s, w₃, rfl, hs, -⟩ := List.map_eq_cons_iff.mp hw₂
  obtain rfl : s = .op .not := Symbol.char_injective hs
  cases hlast : w₁.getLast? with
  | none =>
    rw [List.getLast?_eq_none_iff.mp hlast] at h
    exact absurd rfl h.head
  | some t =>
    have hneg := (List.isChain_append.mp h.chain).2.2 t hlast _ rfl
    refine ⟨t.char, by rw [List.getLast?_map, hlast]; rfl, ?_⟩
    rw [Symbol.isOperand_char]
    exact hneg rfl

theorem NormalText.word {w : List (Symbol Letter)} (h : NormalText (Symbol.spell w)) :
    NormalWord w := by
  have hnegation : ∀ u v, w = u ++ .op .not :: v → ∃ s, u.getLast? = some s ∧
      s.isOperand = true := by
    intro u v huv
    have hchars : (Symbol.spell w).toList = u.map Symbol.char ++ '!' :: v.map Symbol.char := by
      rw [Symbol.toList_spell, huv, List.map_append]
      rfl
    obtain ⟨c, hc, hoperand⟩ := h.negations _ _ hchars
    rw [List.getLast?_map, Option.map_eq_some_iff] at hc
    obtain ⟨s, hs, rfl⟩ := hc
    exact ⟨s, hs, by rwa [Symbol.isOperand_char] at hoperand⟩
  constructor
  case normal =>
    intro s hs
    have hchar : s.char ∈ (Symbol.spell w).toList := Symbol.char_mem_iff.mpr hs
    obtain ⟨hxor, hxnor, himply⟩ := h.connectives
    cases s with
    | const | leaf => rfl
    | op c =>
      cases c with
      | not | and | or => rfl
      | xor => exact absurd hchar hxor
      | xnor => exact absurd hchar hxnor
      | imply => exact absurd hchar himply
  case head =>
    intro hhead
    obtain ⟨v, rfl⟩ := List.head?_eq_some_iff.mp hhead
    obtain ⟨s, hs, -⟩ := hnegation [] v rfl
    cases hs
  case chain =>
    refine List.isChain_iff_forall_rel_of_append_cons_cons.mpr ?_
    rintro s t u v rfl rfl
    obtain ⟨s', hs', hoperand⟩ := hnegation (u ++ [s]) v (List.append_cons ..)
    rw [List.getLast?_concat] at hs'
    cases hs'
    exact hoperand

namespace Formula

variable {f : Formula Letter} {text : String}

theorem isNnf_iff_normalText (hf : f.Intact) (h : f.render = .ok text) :
    f.isNnf = true ↔ NormalText text := by
  obtain ⟨w, hw, rfl⟩ := render_eq_ok.mp h
  rw [isNnf_iff_normalWord hf hw]
  exact ⟨NormalWord.text, NormalText.word⟩

theorem letter_mem_iff (h : f.render = .ok text) {l : Letter} :
    l.char ∈ text.toList ↔ Leaf.var l ∈ f.leaves := by
  obtain ⟨w, hw, rfl⟩ := render_eq_ok.mp h
  rw [← leaf_mem_iff hw]
  exact Symbol.char_mem_iff (s := .leaf l)

end Formula

namespace Tree

variable {source : Source}

/-- What can be read can be normalized, at every level and with any store. -/
theorem exists_parseNnf {f : Formula Letter} (h : source.read = .ok f) (level : Level)
    (store : Store) :
    ∃ t final, (parseNnf level store source).result = .ok (t, final) ∧
      t.root.map Named.name = (f.polar true).map Named.name ∧ t.Fits := by
  refine ⟨_, _, by rw [result_parseNnf, h]; rfl, ?_, ?_⟩
  · show ((ofFormula f store).1.root.polar true).map Named.name = _
    rw [← Formula.polar_map, map_name_ofFormula, Formula.polar_map]
  · intro l x
    have hroot := intact_ofFormula (Source.intact_of_read h) store
    show (ofFormula f store).1.table.lookup l = some x ↔
      .var x ∈ ((ofFormula f store).1.root.polar true).leaves ∧ _
    rw [Formula.mem_leaves_polar hroot]
    exact fits_ofFormula f store l x

/-- The text of the normal form does not depend on the level. -/
theorem normalForm_of_read {f : Formula Letter} (h : source.read = .ok f) {r : String}
    (hr : (f.polar true).render = .ok r) (level : Level) :
    (normalForm level source).result = .ok r := by
  obtain ⟨t, final, ht, hname, -⟩ := exists_parseNnf h level .empty
  unfold normalForm
  rw [Logged.result_bind, ht]
  show t.root.render.mapError _ = _
  rw [Formula.render_eq_of_map_name_eq hname, hr]
  rfl

theorem error_of_parse {level : Level} {store : Store} {e : ParseError}
    (h : (parse level store source).result = .error e) : source.read = .error e := by
  rw [result_parse] at h
  cases hread : source.read with
  | error e' =>
    rw [hread] at h
    cases h
    rfl
  | ok f =>
    rw [hread] at h
    cases h

theorem isNnf_ofFormula (f : Formula Letter) (store : Store) :
    (ofFormula f store).1.root.isNnf = f.isNnf := by
  rw [← Formula.isNnf_map Named.name, map_name_ofFormula, Formula.isNnf_map]

/-- Whether the root of a tree that was read is in normal form can be told from the text. -/
theorem isNnf_root_iff_normalText {level : Level} {store final : Store} {text : String}
    {t : Tree} (h : (parse level store (.text text)).result = .ok (t, final)) :
    t.root.isNnf = true ↔ NormalText text := by
  obtain ⟨f, hread, ht⟩ := parse_eq_ok.mp h
  obtain ⟨hf, hrender⟩ := Formula.ofText?_eq_ok.mp hread
  have hroot : t.root.isNnf = f.isNnf := by rw [← isNnf_ofFormula f store, ht]
  rw [hroot]
  exact Formula.isNnf_iff_normalText hf hrender

/-- Negations of atoms, which stand in a normal form, and a double one, which does not. -/
theorem isNnf_root_iff_normalText_single_and_double_negation :
    (let f := Formula.conj (.disj (.neg (.var ⟨0⟩)) (.neg (.const true))) (.var ⟨0⟩)
     let p := ofFormula f .empty
     (parse .info .empty (.text "A!1!|A&")).result = .ok p ∧
      p.1.root.isNnf = true ∧ NormalText "A!1!|A&") ∧
    (let f := Formula.conj (.var ⟨1⟩) (.neg (.neg (.var ⟨0⟩)))
     let p := ofFormula f .empty
     (parse .debug .empty (.text "BA!!&")).result = .ok p ∧
      p.1.root.isNnf = false ∧ ¬ NormalText "BA!!&") := by
  constructor
  · intro f p
    have hparse : (parse .info .empty (.text "A!1!|A&")).result = .ok p := rfl
    have hroot : p.1.root.isNnf = true := by
      rw [isNnf_ofFormula]
      simp [f, Formula.conj, Formula.disj, Formula.neg, Formula.isAtom, Connective.isMonotone]
    exact ⟨hparse, hroot, (isNnf_root_iff_normalText hparse).mp hroot⟩
  · intro f p
    have hparse : (parse .debug .empty (.text "BA!!&")).result = .ok p := rfl
    have hroot : p.1.root.isNnf = false := by
      rw [isNnf_ofFormula]
      simp [f, Formula.conj, Formula.neg, Formula.isAtom]
    have hiff : p.1.root.isNnf = true ↔ NormalText "BA!!&" := isNnf_root_iff_normalText hparse
    rw [hroot] at hiff
    exact ⟨hparse, hroot, fun htext => Bool.noConfusion (hiff.mpr htext)⟩

/-- Every text that can be read has a normal form. -/
theorem converts_of_read {text : String} {f : Formula Letter}
    (hread : Source.read (.text text) = .ok f) : ∃ r, Converts text r := by
  obtain ⟨hf, htext⟩ := Formula.ofText?_eq_ok.mp hread
  have hintact : (f.polar true).Intact := Formula.intact_polar hf true
  have hnnf : (f.polar true).isNnf = true := Formula.isNnf_polar f true
  obtain ⟨r, hr⟩ := Formula.exists_render_of_intact hintact
  have hreadr : Source.read (.text r) = .ok (f.polar true) :=
    Formula.ofText?_eq_ok.mpr ⟨hintact, hr⟩
  refine ⟨r, ?_⟩
  constructor
  case result => exact normalForm_of_read hread hr
  case read =>
    intro level₁ level₂ store₁ store₂
    obtain ⟨s, final₁, hs, hsname, hfits⟩ := exists_parseNnf hread level₁ store₁
    obtain ⟨t, final₂, ht, htname⟩ := exists_parse hreadr level₂ store₂
    refine ⟨s, t, final₁, final₂, hs, ht, ?_, hfits⟩
    rw [Formula.alike, htname, hsname, beq_self_eq_true]
  case normal => exact (Formula.isNnf_iff_normalText hintact hr).mp hnnf
  case letters =>
    intro l
    rw [Formula.letter_mem_iff hr, Formula.letter_mem_iff htext, Formula.mem_leaves_polar hf]
  case fixed =>
    refine normalForm_of_read hreadr ?_
    rw [Formula.polar_of_isNnf hintact hnnf, hr]

/-- A text that is refused is refused by the conversions too, with the same error, and a text
that is accepted is converted to one in normal form. -/
theorem parse_normalForm (text : String) :
    (∀ {level : Level} {store : Store} {e : ParseError},
      (parse level store (.text text)).result = .error e →
      ∀ (level' : Level) (store' : Store),
        (parseNnf level' store' (.text text)).result = .error (.parse e) ∧
          (normalForm level' (.text text)).result = .error (.parse e)) ∧
    (∀ {level : Level} {store final : Store} {t : Tree},
      (parse level store (.text text)).result = .ok (t, final) → ∃ r, Converts text r) := by
  constructor
  · intro level store e h level' store'
    have hread := error_of_parse h
    have hnnf (store' : Store) :
        (parseNnf level' store' (.text text)).result = .error (.parse e) := by
      rw [result_parseNnf, hread]
      rfl
    refine ⟨hnnf store', ?_⟩
    unfold normalForm
    rw [Logged.result_bind, hnnf .empty]
    rfl
  · intro level store final t h
    obtain ⟨f, hread, -⟩ := exists_read_of_parse h
    exact converts_of_read hread

/-- A text that is refused, and one that is converted. -/
theorem parse_normalForm_refused_and_negated_xor :
    ((parse .debug .empty (.text "A&B")).result = .error (.missingOperand .and 1) ∧
      ∀ (level : Level) (store : Store),
        (parseNnf level store (.text "A&B")).result = .error (.parse (.missingOperand .and 1)) ∧
          (normalForm level (.text "A&B")).result = .error (.parse (.missingOperand .and 1))) ∧
    (let f := Formula.binary .xor (.var ⟨0⟩) (.disj (Formula.var ⟨1⟩).neg.neg (.const true))
     let (t, final) := ofFormula f.neg .empty
     (parse .info .empty (.text "AB!!1|^!")).result = .ok (t, final) ∧
      ∃ r, Converts "AB!!1|^!" r) := by
  have hrefused : (parse .debug .empty (.text "A&B")).result =
      .error (.missingOperand .and 1) := rfl
  have haccepted : (parse .info .empty (.text "AB!!1|^!")).result =
      .ok (ofFormula (Formula.binary .xor (.var ⟨0⟩)
        (.disj (Formula.var ⟨1⟩).neg.neg (.const true))).neg .empty) := rfl
  exact ⟨⟨hrefused, (parse_normalForm _).1 hrefused⟩, haccepted,
    (parse_normalForm _).2 haccepted⟩

end Tree
end PolishLogic
