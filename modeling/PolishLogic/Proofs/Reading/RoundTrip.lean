import PolishLogic.Proofs.Conversion
import PolishLogic.Proofs.Reading.Scan

/-! # Writing and reading

A formula whose variables are named by letters is read back from its written form
(`Formula.parse_render`), and what is read has the text as its written form, which holds of the
operand stack after every prefix of the tokens as well (`Formula.render_parse`). -/

namespace PolishLogic

namespace Tree

/-- A source that can be read is made into a tree at every level and in every store. -/
theorem exists_parse {source : Source} {f : Formula Letter} (h : source.read = .ok f)
    (level : Level) (store : Store) :
    ∃ t final, (parse level store source).result = .ok (t, final) ∧
      t.root.map Named.name = f.map Named.name :=
  ⟨_, _, parse_eq_ok.mpr ⟨f, h, rfl⟩, map_name_ofFormula f store⟩

/-- Behind every tree there is a formula over letters with the same names. -/
theorem exists_read_of_parse {level : Level} {store final : Store} {source : Source} {t : Tree}
    (h : (parse level store source).result = .ok (t, final)) :
    ∃ f, source.read = .ok f ∧ t.root.map Named.name = f.map Named.name := by
  obtain ⟨f, hread, ht⟩ := parse_eq_ok.mp h
  have hname := map_name_ofFormula f store
  rw [ht] at hname
  exact ⟨f, hread, hname⟩

end Tree

namespace Formula

variable {α β : Type}

/-- Every variable of the formula is named by a letter. -/
def Lettered [Named α] : Formula α → Prop
  | hole | const _ => True
  | var x => ∃ l : Letter, Named.name x = l.name
  | unary _ c => c.Lettered
  | binary _ l r => l.Lettered ∧ r.Lettered

/-- A formula whose names are letters is one over letters, but for its records. -/
theorem exists_letters [Named α] {f : Formula α} (h : f.Lettered) :
    ∃ g : Formula Letter, g.map Named.name = f.map Named.name := by
  induction f with
  | hole => exact ⟨hole, rfl⟩
  | const b => exact ⟨const b, rfl⟩
  | var x =>
    obtain ⟨l, hl⟩ := h
    exact ⟨var l, congrArg var hl.symm⟩
  | unary op c ih =>
    obtain ⟨g, hg⟩ := ih h
    exact ⟨unary op g, congrArg (unary op) hg⟩
  | binary op l r ihl ihr =>
    obtain ⟨g, hg⟩ := ihl h.1
    obtain ⟨k, hk⟩ := ihr h.2
    exact ⟨binary op g k, congr (congrArg (binary op) hg) hk⟩

/-- The text of a formula whose names are letters is read as this formula. -/
theorem exists_ofText?_of_render [Named α] {f : Formula α} (hf : f.Intact) (hl : f.Lettered)
    {text : String} (h : f.render = .ok text) :
    ∃ g, ofText? text = .ok g ∧ g.map Named.name = f.map Named.name := by
  obtain ⟨g, hg⟩ := exists_letters hl
  have hgi : g.Intact := by
    rw [← intact_map (g := Named.name), hg, intact_map]
    exact hf
  have hrender : g.render = .ok text := (render_eq_of_map_name_eq hg).trans h
  exact ⟨g, ofText?_eq_ok.mpr ⟨hgi, hrender⟩, hg⟩

/-- The written form of an intact formula with letters for names is read as that formula, and it
is the written form of no other one. -/
theorem parse_render [Named α] {f : Formula α} (hf : f.Intact) (hl : f.Lettered) :
    ∃ text, f.render = .ok text ∧
      (∀ (level : Level) (store : Store), ∃ t final,
        (Tree.parse level store (.text text)).result = .ok (t, final) ∧
          t.root.alike f = true) ∧
      ∀ {β : Type} [Named β] {g : Formula β}, g.Intact → g.Lettered → g.render = .ok text →
        g.alike f = true := by
  obtain ⟨text, htext⟩ := exists_render_of_intact hf
  obtain ⟨k, hread, hk⟩ := exists_ofText?_of_render hf hl htext
  refine ⟨text, htext, fun level store => ?_, fun {β} _ {g} hg hgl hgr => ?_⟩
  · have hsource : Source.read (.text text) = .ok k := hread
    obtain ⟨t, final, ht, hname⟩ := Tree.exists_parse hsource level store
    refine ⟨t, final, ht, ?_⟩
    rw [alike, hname, hk, beq_self_eq_true]
  · obtain ⟨k', hread', hk'⟩ := exists_ofText?_of_render hg hgl hgr
    have hkk : k' = k := Except.ok.inj (hread'.symm.trans hread)
    rw [alike, ← hk', hkk, hk, beq_self_eq_true]

/-- Two negations in a row, below a connective and over one. -/
theorem parse_render_nested_negations :
    let f : Formula String :=
      (binary .imply (binary .xnor (var "B") (const false)).neg.neg
        (binary .xor (var "Z") (var "B")).neg)
    f.Intact ∧ f.Lettered ∧
      ∃ text, f.render = .ok text ∧
        (∀ (level : Level) (store : Store), ∃ t final,
          (Tree.parse level store (.text text)).result = .ok (t, final) ∧
            t.root.alike f = true) ∧
        ∀ {β : Type} [Named β] {g : Formula β}, g.Intact → g.Lettered → g.render = .ok text →
          g.alike f = true := by
  intro f
  have hf : f.Intact := by decide
  have hl : f.Lettered := ⟨⟨⟨⟨1⟩, rfl⟩, trivial⟩, ⟨⟨25⟩, rfl⟩, ⟨1⟩, rfl⟩
  exact ⟨hf, hl, parse_render hf hl⟩

end Formula

namespace OperandStack

/-- What a scan has consumed of the text is what the operands on the stack spell. -/
theorem render_of_scan {text : String} {ts : List Token} {stack : OperandStack}
    (hts : ts <+: (Lexing.ofText text 1 0).tokens) (h : scan [] ts = .ok stack) :
    stack.render = .ok (String.ofList (text.toList.take ts.length)) := by
  obtain ⟨w, rest, hsplit, hrest⟩ := Lexing.exists_spelling text.toList
  rw [Lexing.ofText_of_spelling 1 hsplit hrest] at hts
  have hw : ts.map Token.symbol <+: w := by
    have hmap := hts.map Token.symbol
    rwa [Token.map_symbol_number] at hmap
  obtain ⟨v, rfl⟩ := hw
  have hrender := (scan_eq_ok.mp h).render render_nil
  rw [hrender, String.empty_append, hsplit, List.map_append, List.append_assoc,
    List.take_left' (by simp), ← Symbol.toList_spell, String.ofList_toList]

/-- Wherever reading stands, the operands spell what has been consumed, and a tree that has been
read is written as the whole text. -/
theorem render_parse (text : String) :
    (∀ {ts : List Token} {stack : OperandStack}, ts <+: (Lexing.ofText text 1 0).tokens →
      scan [] ts = .ok stack →
        stack.render = .ok (String.ofList (text.toList.take ts.length)) ∧ stack.AllIntact) ∧
    ∀ {level : Level} {store final : Store} {t : Tree},
      (Tree.parse level store (.text text)).result = .ok (t, final) →
        t.root.render = .ok text ∧ t.root.Intact := by
  have hempty : AllIntact [] := nofun
  refine ⟨fun hts hscan => ⟨render_of_scan hts hscan, hempty.scan hscan⟩, fun h => ?_⟩
  obtain ⟨f, hread, hname⟩ := Tree.exists_read_of_parse h
  have hrender : f.render = .ok text := (Formula.ofText?_eq_ok.mp hread).2
  exact ⟨(Formula.render_eq_of_map_name_eq hname).trans hrender, Tree.intact_of_parse h⟩

/-- A scan that ends with operands left over, and one that ends with a formula. -/
theorem render_parse_three_operands :
    (let tokens := (Lexing.ofText "AB&C0=>" 1 0).tokens
     let stack : OperandStack :=
      [.const false, .var ⟨2⟩, .conj (.var ⟨0⟩) (.var ⟨1⟩)]
     tokens.take 5 <+: tokens ∧ scan [] (tokens.take 5) = .ok stack ∧
      stack.render = .ok "AB&C0" ∧ stack.AllIntact) ∧
    (let f := Formula.binary .imply (.conj (.var ⟨0⟩) (.var ⟨1⟩))
      (.binary .xnor (.var ⟨2⟩) (.const false))
     let (t, final) := Tree.ofFormula f .empty
     (Tree.parse .debug .empty (.text "AB&C0=>")).result = .ok (t, final) ∧
      t.root.render = .ok "AB&C0=>" ∧ t.root.Intact) := by
  have hscan : scan [] ((Lexing.ofText "AB&C0=>" 1 0).tokens.take 5) =
      .ok [.const false, .var ⟨2⟩, .conj (.var ⟨0⟩) (.var ⟨1⟩)] := rfl
  have hparse : (Tree.parse .debug .empty (.text "AB&C0=>")).result =
      .ok (Tree.ofFormula (.binary .imply (.conj (.var ⟨0⟩) (.var ⟨1⟩))
        (.binary .xnor (.var ⟨2⟩) (.const false))) .empty) := rfl
  refine ⟨⟨List.take_prefix _ _, hscan, ?_⟩, hparse, (render_parse _).2 hparse⟩
  exact (render_parse "AB&C0=>").1 (List.take_prefix _ _) hscan

end OperandStack
end PolishLogic
