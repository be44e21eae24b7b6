import PolishLogic.Proofs.Normalization.Written

/-! # Substitution

Formulas may be put in the place of the letters of another one, in the tree or in the text.
Writing takes the one to the other (`Formula.render_bind`), and a normal form is not changed by
having been taken before the substitution as well (`Formula.polar_bind`). So texts may be
normalized before or after texts are put in the place of their letters
(`Tree.parse_substitute`). -/

namespace PolishLogic

/-- The text with `σ l` in the place of each letter `l`, all at once. -/
def substitute (σ : Letter → String) (text : String) : String :=
  String.ofList (text.toList.flatMap fun c =>
    match Letter.ofChar? c with
    | some l => (σ l).toList
    | none => [c])

/-- What stands in the place of a symbol when words are put in the place of leaves. -/
def Symbol.expand {α β : Type} (word : α → List (Symbol β)) : Symbol α → List (Symbol β)
  | const b => [const b]
  | leaf x => word x
  | op c => [op c]

namespace Formula

variable {α β γ : Type}

theorem bind_map (h : α → β) (g : β → Formula γ) (f : Formula α) :
    (f.map h).bind g = f.bind (g ∘ h) := by
  induction f with
  | hole | const | var => rfl
  | unary op c ih => simp only [map, bind, ih]
  | binary op l r ihl ihr => simp only [map, bind, ihl, ihr]

theorem map_bind (g : α → Formula β) (h : β → γ) (f : Formula α) :
    (f.bind g).map h = f.bind fun x => (g x).map h := by
  induction f with
  | hole | const | var => rfl
  | unary op c ih => simp only [map, bind, ih]
  | binary op l r ihl ihr => simp only [map, bind, ihl, ihr]

theorem intact_bind {f : Formula α} {g : α → Formula β} (hf : f.Intact)
    (hg : ∀ x, (g x).Intact) : (f.bind g).Intact := by
  induction f with
  | hole => exact hf.elim
  | const => trivial
  | var x => exact hg x
  | unary op c ih => exact ⟨hf.1, ih hf.2⟩
  | binary op l r ihl ihr => exact ⟨hf.1, ihl hf.2.1, ihr hf.2.2⟩

/-- The words of the formulas put in stand in the place of the variables. -/
theorem postorder_bind {g : α → Formula β} {word : α → List (Symbol β)}
    (hg : ∀ x, (g x).postorder = some (word x)) (f : Formula α) :
    (f.bind g).postorder = f.postorder.map (List.flatMap (Symbol.expand word)) := by
  induction f with
  | hole | const => rfl
  | var x =>
    show (g x).postorder = some (word x ++ [])
    rw [hg, List.append_nil]
  | unary op c ih =>
    rw [bind, postorder_unary, postorder_unary, ih]
    cases c.postorder <;> simp [Symbol.expand]
  | binary op l r ihl ihr =>
    rw [bind, postorder_binary, postorder_binary, ihl, ihr]
    cases l.postorder <;> cases r.postorder <;> simp [Symbol.expand]

/-- The leaves of a normal form stand in it as they are or negated, and what is put in their
place is then brought to the normal form of that polarity. -/
theorem polar_bind (g : α → Formula β) (f : Formula α) (p : Bool) :
    ((f.polar p).bind g).polar true = (f.bind g).polar p := by
  induction f generalizing p with
  | hole => rfl
  | const | var => cases p <;> rfl
  | unary op c ih =>
    cases op with
    | not => exact ih !p
    | and | or | xor | xnor | imply => rfl
  | binary op l r ihl ihr =>
    cases op with
    | not => rfl
    | and | or | xor | xnor | imply =>
      cases p <;> simp only [polar, bind, conj, disj, ihl, ihr]

end Formula

namespace Symbol

/-- Only the characters of leaves are letters. -/
theorem substitute_char {σ : Letter → String} {word : Letter → List (Symbol Letter)}
    (hσ : ∀ l, spell (word l) = σ l) (s : Symbol Letter) :
    (match Letter.ofChar? s.char with
      | some l => (σ l).toList
      | none => [s.char]) = (s.expand word).map char := by
  cases s with
  | const b => cases b <;> rfl
  | leaf l =>
    show (match Letter.ofChar? l.char with | some l => _ | none => _) = _
    rw [Letter.ofChar?_char]
    show (σ l).toList = (word l).map char
    rw [← hσ, toList_spell]
  | op c => cases c <;> rfl

/-- Substitution in a text is that in its word. -/
theorem substitute_spell {σ : Letter → String} {word : Letter → List (Symbol Letter)}
    (hσ : ∀ l, spell (word l) = σ l) (w : List (Symbol Letter)) :
    substitute σ (spell w) = spell (w.flatMap (expand word)) := by
  rw [← String.toList_inj, toList_spell, substitute, String.toList_ofList, toList_spell,
    List.flatMap_map, List.map_flatMap]
  exact List.flatMap_congr fun s _ => substitute_char hσ s

end Symbol

namespace Formula

variable {f : Formula Letter} {g : Letter → Formula Letter} {σ : Letter → String}
  {text : String}

theorem render_bind (hg : ∀ l, (g l).render = .ok (σ l)) (h : f.render = .ok text) :
    (f.bind g).render = .ok (substitute σ text) := by
  have hword : ∀ l, ∃ w, (g l).postorder = some w ∧ Symbol.spell w = σ l := by
    intro l
    exact render_eq_ok.mp (hg l)
  choose word hword hspell using hword
  obtain ⟨w, hw, rfl⟩ := render_eq_ok.mp h
  refine render_eq_ok.mpr ⟨w.flatMap (Symbol.expand word), ?_, ?_⟩
  · rw [postorder_bind hword, hw]
    rfl
  · exact (Symbol.substitute_spell hspell w).symm

/-- A text with accepted texts put in is read as the formula with their formulas put in. -/
theorem ofText?_substitute (hg : ∀ l, ofText? (σ l) = .ok (g l)) (h : ofText? text = .ok f) :
    ofText? (substitute σ text) = .ok (f.bind g) := by
  obtain ⟨hf, htext⟩ := ofText?_eq_ok.mp h
  have himage : ∀ l, (g l).Intact ∧ (g l).render = .ok (σ l) := by
    intro l
    exact ofText?_eq_ok.mp (hg l)
  have hintact : (f.bind g).Intact := intact_bind hf fun l => (himage l).1
  exact ofText?_eq_ok.mpr ⟨hintact, render_bind (fun l => (himage l).2) htext⟩

end Formula

namespace Tree

/-- Trees are put in the place of the variables of a tree by the names of these. -/
theorem map_name_bind {t : Tree} {image : String → Tree} {f : Formula Letter}
    {g : Letter → Formula Letter} (ht : t.root.map Named.name = f.map Named.name)
    (hg : ∀ l : Letter, (image l.name).root.map Named.name = (g l).map Named.name) :
    (t.root.bind fun x => (image x.name).root).map Named.name = (f.bind g).map Named.name :=
  calc (t.root.bind fun x => (image x.name).root).map Named.name
      = (t.root.map Named.name).bind fun n => (image n).root.map Named.name := by
        rw [Formula.map_bind, Formula.bind_map]
        rfl
    _ = f.bind fun l => (image l.name).root.map Named.name := by
        rw [ht, Formula.bind_map]
        rfl
    _ = (f.bind g).map Named.name := by
        rw [Formula.map_bind]
        exact congrArg f.bind (funext hg)

/-- What is read from a text with accepted texts in the place of its letters is the tree of the
text with their trees in the place of its variables, and it does not matter to its normal form
whether the text was in normal form before. -/
theorem parse_substitute {text : String} {σ : Letter → String} {level : Level}
    {store final : Store} {t : Tree} {image : String → Tree}
    (ht : (parse level store (.text text)).result = .ok (t, final))
    (hσ : ∀ l : Letter, ∃ level store final,
      (parse level store (.text (σ l))).result = .ok (image l.name, final)) :
    (∀ (level' : Level) (store' : Store), ∃ u final',
      (parse level' store' (.text (substitute σ text))).result = .ok (u, final') ∧
        u.root.alike (t.root.bind fun x => (image x.name).root) = true) ∧
    ∃ r s, ∀ level' : Level,
      (normalForm level' (.text text)).result = .ok r ∧
        (normalForm level' (.text (substitute σ text))).result = .ok s ∧
          (normalForm level' (.text (substitute σ r))).result = .ok s := by
  obtain ⟨f, hread, htname⟩ := exists_read_of_parse ht
  have himage : ∀ l, ∃ g, Formula.ofText? (σ l) = .ok g ∧
      (image l.name).root.map Named.name = g.map Named.name := by
    intro l
    obtain ⟨_, _, _, h⟩ := hσ l
    exact exists_read_of_parse h
  choose g hg hgname using himage
  have hsub : Source.read (.text (substitute σ text)) = .ok (f.bind g) :=
    Formula.ofText?_substitute hg hread
  refine ⟨fun level' store' => ?_, ?_⟩
  · obtain ⟨u, final', hu, huname⟩ := exists_parse hsub level' store'
    refine ⟨u, final', hu, ?_⟩
    rw [Formula.alike, huname, map_name_bind htname hgname, beq_self_eq_true]
  · have hf : f.Intact := Source.intact_of_read hread
    have hpolar : (f.polar true).Intact := Formula.intact_polar hf true
    obtain ⟨r, hr⟩ := Formula.exists_render_of_intact hpolar
    have hgi : ∀ l, (g l).Intact := fun l => Formula.intact_of_ofText? (hg l)
    have hbind : ((f.bind g).polar true).Intact :=
      Formula.intact_polar (Formula.intact_bind hf hgi) true
    obtain ⟨s, hs⟩ := Formula.exists_render_of_intact hbind
    have hsubr : Source.read (.text (substitute σ r)) = .ok ((f.polar true).bind g) :=
      Formula.ofText?_substitute hg (Formula.ofText?_eq_ok.mpr ⟨hpolar, hr⟩)
    refine ⟨r, s, fun level' => ⟨normalForm_of_read hread hr level', ?_, ?_⟩⟩
    · exact normalForm_of_read hsub hs level'
    · refine normalForm_of_read hsubr ?_ level'
      rw [Formula.polar_bind, hs]

/-- Each letter is replaced by a text that ends in a negation. -/
theorem parse_substitute_negated_images :
    let σ : Letter → String := fun l => if l = ⟨0⟩ then "BC^!!" else "A1=!"
    let fA : Formula Letter := (Formula.binary .xor (.var ⟨1⟩) (.var ⟨2⟩)).neg.neg
    let fB : Formula Letter := (Formula.binary .xnor (.var ⟨0⟩) (.const true)).neg
    let image : String → Tree := fun n => (ofFormula (if n = "A" then fA else fB) .empty).1
    let (t, final) := ofFormula (Formula.binary .imply (Formula.var ⟨0⟩).neg (.var ⟨1⟩)).neg .empty
    (parse .info .empty (.text "A!B>!")).result = .ok (t, final) ∧
      (∀ l : Letter, ∃ level store final,
        (parse level store (.text (σ l))).result = .ok (image l.name, final)) ∧
      substitute σ "A!B>!" = "BC^!!!A1=!>!" ∧
      (∀ (level' : Level) (store' : Store), ∃ u final',
        (parse level' store' (.text (substitute σ "A!B>!"))).result = .ok (u, final') ∧
          u.root.alike (t.root.bind fun x => (image x.name).root) = true) ∧
      ∃ r s, ∀ level' : Level,
        (normalForm level' (.text "A!B>!")).result = .ok r ∧
          (normalForm level' (.text (substitute σ "A!B>!"))).result = .ok s ∧
            (normalForm level' (.text (substitute σ r))).result = .ok s := by
  intro σ fA fB image
  have ht : (parse .info .empty (.text "A!B>!")).result =
      .ok (ofFormula (Formula.binary .imply (Formula.var ⟨0⟩).neg (.var ⟨1⟩)).neg .empty) := rfl
  have hσ : ∀ l : Letter, ∃ level store final,
      (parse level store (.text (σ l))).result = .ok (image l.name, final) := by
    intro l
    by_cases hl : l = ⟨0⟩
    · have hname : l.name = "A" := congrArg Letter.name hl
      have himage : image l.name = (ofFormula fA .empty).1 := by simp only [image, if_pos hname]
      have htext : σ l = "BC^!!" := if_pos hl
      rw [himage, htext]
      exact ⟨.info, .empty, (ofFormula fA .empty).2, rfl⟩
    · have hname : l.name ≠ "A" := fun h => hl (Letter.name_injective (l := ⟨0⟩) h)
      have himage : image l.name = (ofFormula fB .empty).1 := by simp only [image, if_neg hname]
      have htext : σ l = "A1=!" := if_neg hl
      rw [himage, htext]
      exact ⟨.info, .empty, (ofFormula fB .empty).2, rfl⟩
  exact ⟨ht, hσ, by decide, parse_substitute ht hσ⟩

end Tree
end PolishLogic
