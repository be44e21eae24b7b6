import Mathlib.Data.List.Forall2
import PolishLogic.Formula.Checked
import PolishLogic.Text.Utf8

/-! # Decoding and encoding

Bytes decode to a text exactly if they are what the standard library encodes the text as
(`Utf8.decode_eq_ok_iff`), so those that do not decode are the encoding of no text at all
(`Utf8.exists_error_iff`). `Spells` says what the automaton reads as one character: a lead byte and
bytes in the ranges that the lead byte leaves to them. -/

namespace PolishLogic
namespace Utf8

/-- The bytes of a text as the standard library encodes it. -/
def encode (text : String) : List UInt8 := text.toUTF8.data.toList

/-- There is one byte for each range, and it lies there. -/
def Fills (missing : Ranges) (bytes : List UInt8) : Prop :=
  List.Forall₂ (fun r b => r.1 ≤ b.toNat ∧ b.toNat ≤ r.2) missing bytes

/-- The code point that six bits of each byte make of what comes before them. -/
def extend (value : Nat) : List UInt8 → Nat
  | [] => value
  | b :: bytes => extend (b.toNat - 0x80 + value * 64) bytes

/-- The bytes are a lead byte with what it asks for, and stand for the character. -/
def Spells (bytes : List UInt8) (c : Char) : Prop :=
  ∃ b tail value missing, bytes = b :: tail ∧ lead b.toNat = some (value, missing) ∧
    Fills missing tail ∧ c = Char.ofNat (extend value tail)

/-! ## One character at a time -/

section decodeFrom

/-- Decoding goes on with a sequence, or with the next one if no byte of it is missing. -/
def resume (s : Sequence) (i : Nat) (bytes : List UInt8) : Except Error (List Char) :=
  match s.missing with
  | [] => do return Char.ofNat s.value :: (← decodeFrom none i bytes)
  | _ :: _ => decodeFrom (some s) i bytes

variable {r : Nat × Nat} {b : UInt8}

theorem add_length_cons (i : Nat) (b : UInt8) (tail : List UInt8) :
    i + (b :: tail).length = i + 1 + tail.length := by
  rw [List.length_cons, ← Nat.add_assoc, Nat.add_right_comm]

theorem decodeFrom_none_cons (i : Nat) (b : UInt8) (bytes : List UInt8) :
    decodeFrom none i (b :: bytes) =
      match lead b.toNat with
      | none => .error ⟨i, b, 1, .invalidStart⟩
      | some (value, missing) => resume ⟨b, 1, value, missing⟩ (i + 1) bytes := by
  rw [decodeFrom]
  rcases lead b.toNat with _ | ⟨value, _ | ⟨r, missing⟩⟩ <;> rfl

theorem decodeFrom_some_cons (hb : r.1 ≤ b.toNat ∧ b.toNat ≤ r.2) (first : UInt8)
    (count value : Nat) (missing : Ranges) (i : Nat) (bytes : List UInt8) :
    decodeFrom (some ⟨first, count, value, r :: missing⟩) i (b :: bytes) =
      resume ⟨first, count + 1, b.toNat - 0x80 + value * 64, missing⟩ (i + 1) bytes := by
  rw [decodeFrom, Nat.add_comm (b.toNat - 0x80)]
  show (if r.1 ≤ b.toNat ∧ b.toNat ≤ r.2 then _ else _) = _
  rw [if_pos hb]
  cases missing <;> rfl

theorem decodeFrom_some_cons_of_outside (hb : ¬ (r.1 ≤ b.toNat ∧ b.toNat ≤ r.2)) (first : UInt8)
    (count value : Nat) (missing : Ranges) (i : Nat) (bytes : List UInt8) :
    decodeFrom (some ⟨first, count, value, r :: missing⟩) i (b :: bytes) =
      .error ⟨i - count, first, count, .invalidContinuation⟩ := by
  rw [decodeFrom]
  exact if_neg hb

/-- The induction is on the ranges: each byte that is read fills the first of them. -/
theorem resume_eq_ok_iff {first : UInt8} {count value i : Nat} {missing : Ranges}
    {bytes : List UInt8} {text : List Char} :
    resume ⟨first, count, value, missing⟩ i bytes = .ok text ↔
      ∃ tail rest text', bytes = tail ++ rest ∧ Fills missing tail ∧
        text = Char.ofNat (extend value tail) :: text' ∧
        decodeFrom none (i + tail.length) rest = .ok text' := by
  induction missing generalizing count value i bytes with
  | nil =>
    constructor
    · intro h
      obtain ⟨text', htext', h⟩ := Except.bind_eq_ok.mp h
      cases h
      exact ⟨[], bytes, text', rfl, .nil, rfl, htext'⟩
    · rintro ⟨tail, rest, text', rfl, hfills, rfl, hrest⟩
      cases hfills
      exact Except.bind_eq_ok.mpr ⟨text', hrest, rfl⟩
  | cons r missing ih =>
    show decodeFrom (some _) i bytes = _ ↔ _
    constructor
    · intro h
      cases bytes with
      | nil => cases h
      | cons b bytes =>
        by_cases hb : r.1 ≤ b.toNat ∧ b.toNat ≤ r.2
        · rw [decodeFrom_some_cons hb] at h
          obtain ⟨tail, rest, text', rfl, hfills, htext, hrest⟩ := ih.mp h
          rw [← extend] at htext
          rw [← add_length_cons i b] at hrest
          exact ⟨b :: tail, rest, text', rfl, .cons hb hfills, htext, hrest⟩
        · rw [decodeFrom_some_cons_of_outside hb] at h
          cases h
    · rintro ⟨_, rest, text', rfl, hfills, htext, hrest⟩
      obtain ⟨b, tail, hb, hfill, rfl⟩ := List.forall₂_cons_left_iff.mp hfills
      rw [add_length_cons] at hrest
      rw [extend] at htext
      rw [List.cons_append, decodeFrom_some_cons hb]
      exact ih.mpr ⟨tail, rest, text', rfl, hfill, htext, hrest⟩

/-- Bytes that are decoded begin with a sequence that spells one character. -/
theorem decodeFrom_none_eq_ok_iff {i : Nat} {bytes : List UInt8} {text : List Char}
    (hne : bytes ≠ []) :
    decodeFrom none i bytes = .ok text ↔
      ∃ u rest c text', bytes = u ++ rest ∧ Spells u c ∧ text = c :: text' ∧
        decodeFrom none (i + u.length) rest = .ok text' := by
  obtain ⟨b, bytes, rfl⟩ := List.exists_cons_of_ne_nil hne
  rw [decodeFrom_none_cons]
  constructor
  · intro h
    cases hlead : lead b.toNat with
    | none =>
      rw [hlead] at h
      cases h
    | some p =>
      obtain ⟨value, missing⟩ := p
      rw [hlead] at h
      obtain ⟨tail, rest, text', rfl, hfills, htext, hrest⟩ := resume_eq_ok_iff.mp h
      rw [← add_length_cons i b] at hrest
      exact ⟨b :: tail, rest, _, text', rfl, ⟨b, tail, value, missing, rfl, hlead, hfills, rfl⟩,
        htext, hrest⟩
  · rintro ⟨_, rest, c, text', hsplit, ⟨b', tail, value, missing, rfl, hlead, hfills, hc⟩, htext,
      hrest⟩
    obtain ⟨rfl, rfl⟩ := List.cons.inj hsplit
    rw [hc] at htext
    rw [add_length_cons] at hrest
    rw [hlead]
    exact resume_eq_ok_iff.mpr ⟨tail, rest, text', rfl, hfills, htext, hrest⟩

end decodeFrom

/-! ## The bytes of a character -/

section lead

variable {b value : Nat} {missing : Ranges}

theorem lead_one (h : b ≤ 0x7F) : lead b = some (b, []) := if_pos (Nat.lt_succ_of_le h)

theorem lead_two (h : 0xC2 ≤ b ∧ b < 0xE0) : lead b = some (b - 0xC0, [(0x80, 0xBF)]) := by
  rw [lead, if_neg (by omega), if_neg (by omega), if_pos (by omega)]

theorem lead_three (h : 0xE0 ≤ b ∧ b < 0xF0) :
    lead b = some (b - 0xE0, [(if b = 0xE0 then 0xA0 else 0x80,
      if b = 0xED then 0x9F else 0xBF), (0x80, 0xBF)]) := by
  rw [lead, if_neg (by omega), if_neg (by omega), if_neg (by omega)]
  by_cases h0 : b = 0xE0
  · rw [if_pos h0, if_pos h0, if_neg (by omega)]
  by_cases hd : b = 0xED
  · rw [if_neg h0, if_pos hd, if_neg h0, if_pos hd]
  · rw [if_neg h0, if_neg hd, if_pos (by omega), if_neg h0, if_neg hd]

theorem lead_four (h : 0xF0 ≤ b ∧ b ≤ 0xF4) :
    lead b = some (b - 0xF0, [(if b = 0xF0 then 0x90 else 0x80,
      if b = 0xF4 then 0x8F else 0xBF), (0x80, 0xBF), (0x80, 0xBF)]) := by
  rw [lead, if_neg (by omega), if_neg (by omega), if_neg (by omega), if_neg (by omega),
    if_neg (by omega), if_neg (by omega)]
  by_cases h0 : b = 0xF0
  · rw [if_pos h0, if_pos h0, if_neg (by omega)]
  by_cases h4 : b = 0xF4
  · rw [if_neg h0, if_neg (by omega), if_pos h4, if_neg h0, if_pos h4]
  · rw [if_neg h0, if_pos (by omega), if_neg h0, if_neg h4]

theorem lead_eq_none (h : 0x7F < b ∧ b < 0xC2 ∨ 0xF4 < b) : lead b = none := by
  rcases h with h | h
  · rw [lead, if_neg (by omega), if_pos h.2]
  · rw [lead, if_neg (by omega), if_neg (by omega), if_neg (by omega), if_neg (by omega),
      if_neg (by omega), if_neg (by omega), if_neg (by omega), if_neg (by omega),
      if_neg (by omega)]

/-- The four forms of a sequence. In two of them the byte after some lead bytes has a narrower
range, which keeps out what is written too long, the surrogates and what is above all characters. -/
theorem lead_eq_some (h : lead b = some (value, missing)) :
    b ≤ 0x7F ∧ value = b ∧ missing = [] ∨
      (0xC2 ≤ b ∧ b < 0xE0) ∧ value + 0xC0 = b ∧ missing = [(0x80, 0xBF)] ∨
      (0xE0 ≤ b ∧ b < 0xF0) ∧ value + 0xE0 = b ∧
        missing = [(if b = 0xE0 then 0xA0 else 0x80, if b = 0xED then 0x9F else 0xBF),
          (0x80, 0xBF)] ∨
      (0xF0 ≤ b ∧ b ≤ 0xF4) ∧ value + 0xF0 = b ∧
        missing = [(if b = 0xF0 then 0x90 else 0x80, if b = 0xF4 then 0x8F else 0xBF),
          (0x80, 0xBF), (0x80, 0xBF)] := by
  by_cases h1 : b ≤ 0x7F
  · rw [lead_one h1] at h
    cases h
    exact .inl ⟨h1, rfl, rfl⟩
  by_cases h2 : 0xC2 ≤ b ∧ b < 0xE0
  · rw [lead_two h2] at h
    have heq := Prod.mk.inj (Option.some.inj h)
    exact .inr (.inl ⟨h2, by omega, heq.2.symm⟩)
  by_cases h3 : 0xE0 ≤ b ∧ b < 0xF0
  · rw [lead_three h3] at h
    have heq := Prod.mk.inj (Option.some.inj h)
    exact .inr (.inr (.inl ⟨h3, by omega, heq.2.symm⟩))
  by_cases h4 : 0xF0 ≤ b ∧ b ≤ 0xF4
  · rw [lead_four h4] at h
    have heq := Prod.mk.inj (Option.some.inj h)
    exact .inr (.inr (.inr ⟨h4, by omega, heq.2.symm⟩))
  · rw [lead_eq_none (by omega)] at h
    cases h

end lead

theorem utf8EncodeChar_ofNat {n : Nat} (h : n.isValidChar) :
    String.utf8EncodeChar (Char.ofNat n) =
      if n ≤ 0x7F then [UInt8.ofNat n]
      else if n ≤ 0x7FF then [UInt8.ofNat (n / 64 % 32 + 0xC0), UInt8.ofNat (n % 64 + 0x80)]
      else if n ≤ 0xFFFF then
        [UInt8.ofNat (n / 4096 % 16 + 0xE0), UInt8.ofNat (n / 64 % 64 + 0x80),
          UInt8.ofNat (n % 64 + 0x80)]
      else
        [UInt8.ofNat (n / 262144 % 8 + 0xF0), UInt8.ofNat (n / 4096 % 64 + 0x80),
          UInt8.ofNat (n / 64 % 64 + 0x80), UInt8.ofNat (n % 64 + 0x80)] := by
  have hval : (Char.ofNat n).val.toNat = n := by
    rw [Char.ofNat, dif_pos h]
    rfl
  unfold String.utf8EncodeChar
  simp only [hval]

theorem eq_ofNat_of_toNat {b : UInt8} {n : Nat} (h : b.toNat = n) : b = UInt8.ofNat n := by
  rw [← h, UInt8.ofNat_toNat]

/-- No sequence spells a character but its encoding. -/
theorem Spells.eq_utf8EncodeChar {bytes : List UInt8} {c : Char} (h : Spells bytes c) :
    bytes = String.utf8EncodeChar c := by
  obtain ⟨b, tail, value, missing, rfl, hlead, hfills, hc⟩ := h
  generalize hn : extend value tail = n at hc
  subst hc
  -- In each form the bounds of the bytes are those of the code points that are written so.
  rcases lead_eq_some hlead with ⟨hb, hv, rfl⟩ | ⟨hb, hv, rfl⟩ | ⟨hb, hv, rfl⟩ |
    ⟨hb, hv, rfl⟩ <;>
    simp only [Fills, List.forall₂_cons_left_iff, List.forall₂_nil_left_iff] at hfills
  · subst hfills
    have hn : n = b.toNat := hn.symm.trans hv
    rw [utf8EncodeChar_ofNat (.inl (by omega)), if_pos (by omega), hn, UInt8.ofNat_toNat]
  · obtain ⟨c, _, hc, rfl, rfl⟩ := hfills
    have hn : c.toNat - 0x80 + value * 64 = n := hn
    rw [utf8EncodeChar_ofNat (.inl (by omega)), if_neg (by omega), if_pos (by omega)]
    exact congrArg₂ List.cons (eq_ofNat_of_toNat (by omega))
      (congrArg₂ List.cons (eq_ofNat_of_toNat (by omega)) rfl)
  · obtain ⟨c, _, hc, ⟨d, _, hd, rfl, rfl⟩, rfl⟩ := hfills
    have hn : d.toNat - 0x80 + (c.toNat - 0x80 + value * 64) * 64 = n := hn
    have hc : (0x80 ≤ c.toNat ∧ c.toNat ≤ 0xBF) ∧ (b.toNat = 0xE0 → 0xA0 ≤ c.toNat) ∧
        (b.toNat = 0xED → c.toNat ≤ 0x9F) := by grind
    have hvalid : n < 0xD800 ∨ 0xDFFF < n ∧ n < 0x110000 := by omega
    rw [utf8EncodeChar_ofNat hvalid, if_neg (by omega), if_neg (by omega), if_pos (by omega)]
    exact congrArg₂ List.cons (eq_ofNat_of_toNat (by omega))
      (congrArg₂ List.cons (eq_ofNat_of_toNat (by omega))
        (congrArg₂ List.cons (eq_ofNat_of_toNat (by omega)) rfl))
  · obtain ⟨c, _, hc, ⟨d, _, hd, ⟨e, _, he, rfl, rfl⟩, rfl⟩, rfl⟩ := hfills
    have hn : e.toNat - 0x80 + (d.toNat - 0x80 + (c.toNat - 0x80 + value * 64) * 64) * 64 = n := hn
    have hc : (0x80 ≤ c.toNat ∧ c.toNat ≤ 0xBF) ∧ (b.toNat = 0xF0 → 0x90 ≤ c.toNat) ∧
        (b.toNat = 0xF4 → c.toNat ≤ 0x8F) := by grind
    have hvalid : n < 0xD800 ∨ 0xDFFF < n ∧ n < 0x110000 := by omega
    rw [utf8EncodeChar_ofNat hvalid, if_neg (by omega), if_neg (by omega), if_neg (by omega)]
    exact congrArg₂ List.cons (eq_ofNat_of_toNat (by omega))
      (congrArg₂ List.cons (eq_ofNat_of_toNat (by omega))
        (congrArg₂ List.cons (eq_ofNat_of_toNat (by omega))
          (congrArg₂ List.cons (eq_ofNat_of_toNat (by omega)) rfl)))

theorem exists_byte {k n : Nat} (h : k = n) (hn : n < 256) :
    ∃ b : UInt8, UInt8.ofNat k = b ∧ b.toNat = n :=
  ⟨_, rfl, by rw [h, UInt8.toNat_ofNat', Nat.mod_eq_of_lt hn]⟩

/-- The encoding of a character spells it; the cases are its four lengths. -/
theorem spells_utf8EncodeChar (c : Char) : Spells (String.utf8EncodeChar c) c := by
  generalize hn : c.toNat = n
  have hc : c = Char.ofNat n := by rw [← hn, Char.ofNat_toNat]
  have hvalid : n < 0xD800 ∨ 0xDFFF < n ∧ n < 0x110000 := hn ▸ c.valid
  rw [hc, utf8EncodeChar_ofNat hvalid]
  split
  · obtain ⟨b, rfl, hb⟩ := exists_byte (k := n) rfl (by omega)
    exact ⟨_, [], _, [], rfl, lead_one (by omega), .nil, congrArg Char.ofNat hb.symm⟩
  split
  · obtain ⟨b, hb, hbn⟩ :=
      exists_byte (k := n / 64 % 32 + 0xC0) (n := n / 64 + 0xC0) (by omega) (by omega)
    obtain ⟨c, hc, hcn⟩ := exists_byte (k := n % 64 + 0x80) rfl (by omega)
    rw [hb, hc]
    refine ⟨b, [c], _, _, rfl, lead_two (by omega), .cons (by omega) .nil, congrArg Char.ofNat ?_⟩
    rw [extend, extend]
    omega
  split
  · obtain ⟨b, hb, hbn⟩ :=
      exists_byte (k := n / 4096 % 16 + 0xE0) (n := n / 4096 + 0xE0) (by omega) (by omega)
    obtain ⟨c, hc, hcn⟩ := exists_byte (k := n / 64 % 64 + 0x80) rfl (by omega)
    obtain ⟨d, hd, hdn⟩ := exists_byte (k := n % 64 + 0x80) rfl (by omega)
    rw [hb, hc, hd]
    refine ⟨b, [c, d], _, _, rfl, lead_three (by omega), .cons ?_ (.cons (by omega) .nil),
      congrArg Char.ofNat ?_⟩
    · constructor <;> dsimp only <;> split <;> omega
    · rw [extend, extend, extend]
      omega
  · obtain ⟨b, hb, hbn⟩ :=
      exists_byte (k := n / 262144 % 8 + 0xF0) (n := n / 262144 + 0xF0) (by omega) (by omega)
    obtain ⟨c, hc, hcn⟩ := exists_byte (k := n / 4096 % 64 + 0x80) rfl (by omega)
    obtain ⟨d, hd, hdn⟩ := exists_byte (k := n / 64 % 64 + 0x80) rfl (by omega)
    obtain ⟨e, he, hen⟩ := exists_byte (k := n % 64 + 0x80) rfl (by omega)
    rw [hb, hc, hd, he]
    refine ⟨b, [c, d, e], _, _, rfl, lead_four (by omega),
      .cons ?_ (.cons (by omega) (.cons (by omega) .nil)), congrArg Char.ofNat ?_⟩
    · constructor <;> dsimp only <;> split <;> omega
    · rw [extend, extend, extend, extend]
      omega

/-- What is read as one character is how this character is encoded. -/
theorem spells_iff {bytes : List UInt8} {c : Char} :
    Spells bytes c ↔ bytes = String.utf8EncodeChar c := by
  constructor
  · exact Spells.eq_utf8EncodeChar
  · rintro rfl
    exact spells_utf8EncodeChar c

/-! ## Texts -/

theorem encode_eq (text : String) : encode text = text.toList.flatMap String.utf8EncodeChar := by
  rw [encode, String.toUTF8_eq_toByteArray, ← String.utf8Encode_toList, List.utf8Encode]
  simp

theorem utf8EncodeChar_ne_nil (c : Char) : String.utf8EncodeChar c ≠ [] := by
  obtain ⟨b, tail, -, -, heq, -⟩ := spells_utf8EncodeChar c
  rw [heq]
  exact List.cons_ne_nil b tail

/-- The induction is on the number of bytes, of which every character takes at least one. -/
theorem decodeFrom_eq_ok_iff {i : Nat} {bytes : List UInt8} {text : List Char} :
    decodeFrom none i bytes = .ok text ↔ bytes = text.flatMap String.utf8EncodeChar := by
  induction hlength : bytes.length using Nat.strongRecOn generalizing i bytes text with
  | ind k ih =>
    by_cases hbytes : bytes = []
    · subst hbytes
      cases text with
      | nil => exact ⟨fun _ => rfl, fun _ => rfl⟩
      | cons c text =>
        refine ⟨nofun, fun h => absurd (List.append_eq_nil_iff.mp h.symm).1 ?_⟩
        exact utf8EncodeChar_ne_nil c
    · rw [decodeFrom_none_eq_ok_iff hbytes]
      have hrest {u rest : List UInt8} {c : Char} (hsplit : bytes = u ++ rest) (hu : Spells u c) :
          rest.length < k := by
        have hpos := List.length_pos_iff.mpr (utf8EncodeChar_ne_nil c)
        rw [← hlength, hsplit, List.length_append, spells_iff.mp hu]
        omega
      constructor
      · rintro ⟨u, rest, c, text', hsplit, hu, rfl, h⟩
        rw [hsplit, spells_iff.mp hu, (ih _ (hrest hsplit hu) rfl).mp h, List.flatMap_cons]
      · intro h
        cases text with
        | nil => exact absurd h hbytes
        | cons c text =>
          have hc := spells_utf8EncodeChar c
          exact ⟨_, _, c, text, h, hc, rfl, (ih _ (hrest h hc) rfl).mpr rfl⟩

/-- Bytes decode to a text exactly if they are the encoding of the text. -/
theorem decode_eq_ok_iff {bytes : List UInt8} {text : List Char} :
    decode bytes = .ok text ↔ bytes = encode (String.ofList text) := by
  rw [encode_eq, String.toList_ofList]
  exact decodeFrom_eq_ok_iff

/-- What was encoded is decoded to the same text. -/
theorem decode_encode (text : String) : decode (encode text) = .ok text.toList := by
  rw [decode_eq_ok_iff, String.ofList_toList]

/-- Bytes that do not decode are the encoding of no text. -/
theorem exists_error_iff {bytes : List UInt8} :
    (∃ e, decode bytes = .error e) ↔ ∀ text, encode text ≠ bytes := by
  constructor
  · rintro ⟨e, he⟩ text rfl
    rw [decode_encode] at he
    cases he
  · intro h
    cases hdecode : decode bytes with
    | error e => exact ⟨e, rfl⟩
    | ok text => exact absurd (decode_eq_ok_iff.mp hdecode).symm (h _)

end Utf8
end PolishLogic
