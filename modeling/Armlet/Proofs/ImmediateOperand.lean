import Armlet.Assembler.Listing
import Armlet.Instruction.Text
import Armlet.Machine.Execution
import Armlet.Proofs.Canonical
import Armlet.Proofs.Operands
import Armlet.Proofs.ShiftArithmetic
import Armlet.Proofs.Spelling

/-!
# Numbers as second operands

A data-processing line may end in a number, `#n`. The word for it is `n` modulo 2^32,
but an instruction has no room for a word: it holds a byte and says how far to turn
it. So not every number can be written, and of the ways to write one the assembler
takes that with the least rotation.

`SecondOperand.Gives` says in integers what a byte and a rotation make. A number is
accepted iff it is that of some word, signed or unsigned, and there are a byte and a
rotation that give this word. What is accepted `Denotes` the word wherever operands
are looked at: in execution, in an encoded word that is decoded again, and in a
disassembly. What is not accepted is reported as it was written, not as its word.
-/

namespace Armlet

/-! ## A byte that is turned -/

namespace SecondOperand

/-- The byte `imm`, turned right by `2 * rotate` places, is the number `n`. -/
def Gives (imm rotate n : Nat) : Prop :=
  imm ≤ 255 ∧ rotate ≤ 15 ∧ turnedRight imm (2 * rotate) = n

/-- An operand stands for the number `n` in everything that is done with it. -/
structure Denotes (operand : SecondOperand) (n : Nat) : Prop where
  executed : ∀ cpu : Processor, (cpu.secondOperand operand).value.toNat = n
  decoded : ∀ i : DataProcessing, i.operand = operand →
    Instruction.decode? (Instruction.dataProcessing i).encode = some (.dataProcessing i)
  shown : operand.text = "#" ++ Numeral.decimal n

theorem toNat_immediateValue {imm : Byte} {rotate : BitVec 8} (h : rotate.toNat ≤ 15) :
    (immediateValue imm rotate).toNat = turnedRight imm.toNat (2 * rotate.toNat) := by
  have himm : (imm.setWidth 32).toNat = imm.toNat := by
    have := imm.isLt
    rw [BitVec.toNat_setWidth]
    omega
  rw [immediateValue, Word.toNat_rotateRight, himm, Nat.mod_eq_of_lt (by omega)]

/-- What a byte and a rotation of four bits make is a rotation in bits. -/
theorem Gives.rotation {imm rotate : Nat} {value : Word} (h : Gives imm rotate value.toNat) :
    Rotation value rotate := by
  obtain ⟨himm, hrotate, hturned⟩ := h
  have hmod : (BitVec.ofNat 8 rotate).toNat = rotate := by
    rw [BitVec.toNat_ofNat]
    omega
  have hbyte : (BitVec.ofNat 8 imm).toNat = imm := by
    rw [BitVec.toNat_ofNat]
    omega
  have hle : (BitVec.ofNat 8 rotate).toNat ≤ 15 := by omega
  have hvalue : (immediateValue (BitVec.ofNat 8 imm) (BitVec.ofNat 8 rotate)).toNat
      = value.toNat := by
    rw [toNat_immediateValue hle, hmod, hbyte, hturned]
  refine ⟨BitVec.ofNat 8 imm, ?_⟩
  rw [← BitVec.eq_of_toNat_eq hvalue, immediateValue, hmod]

theorem Denotes.of_immediate {imm : Byte} {rotate : BitVec 8} (h : rotate.toNat ≤ 15) :
    Denotes (.immediate imm rotate) (immediateValue imm rotate).toNat where
  executed := fun _ => rfl
  decoded := by
    intro i hi
    have hencodable : (Instruction.dataProcessing i).Encodable := by
      refine ⟨by rw [hi]; exact h, ?_⟩
      rintro rfl
      cases hi
    exact Instruction.decode?_encode_of_encodable hencodable
  shown := rfl

section Least

variable {value : Word} (h : ∃ rotate, Rotation value rotate)

/-- The operand with the least rotation gives the word, and stands for it. -/
theorem exists_leastImmediate : ∃ (imm : Byte) (rotate : BitVec 8),
    leastImmediate value h = .immediate imm rotate
      ∧ Gives imm.toNat rotate.toNat value.toNat
      ∧ (∀ imm' rotate', Gives imm' rotate' value.toNat → rotate.toNat ≤ rotate')
      ∧ Denotes (leastImmediate value h) value.toNat := by
  have hle : (BitVec.ofNat 8 (Nat.find h)).toNat ≤ 15 := by
    have := find_lt h
    rw [toNat_find]
    omega
  have hvalue := immediateValue_leastImmediate h
  refine ⟨_, _, rfl, ⟨?_, hle, ?_⟩, ?_, ?_⟩
  · exact Nat.le_of_lt_succ (BitVec.isLt _)
  · rw [← toNat_immediateValue hle, hvalue]
  · intro imm' rotate' hgives
    rw [toNat_find]
    exact Nat.find_min' h hgives.rotation
  · have hdenotes : Denotes (leastImmediate value h)
        (immediateValue ((value.rotateLeft (2 * Nat.find h)).setWidth 8)
          (BitVec.ofNat 8 (Nat.find h))).toNat := Denotes.of_immediate hle
    rwa [hvalue] at hdenotes

end Least

/-- Without a rotation there is no operand. -/
theorem ofValue?_eq_none {value : Word} (h : ¬ ∃ rotate, Rotation value rotate) :
    ofValue? value = none := by
  rw [ofValue?, List.findSome?_eq_none_iff]
  intro rotate _
  have hnone : immediateByte? value rotate = none := by
    rw [← Option.not_isSome_iff_eq_none, isSome_immediateByte?_iff]
    intro hrotation
    exact h ⟨rotate, hrotation⟩
  rw [hnone, Option.map_none]

end SecondOperand

/-! ## Reading the number -/

namespace Numeral

/-- Every number of 64 bits has a numeral. -/
theorem int64?_signedDecimal {v : Int} (hlo : -0x8000000000000000 ≤ v)
    (hhi : v < 0x8000000000000000) : int64? (signedDecimal v).toList = some v := by
  have hsigned : signed? (signedDecimal v).toList = some v := by
    cases v with
    | ofNat n => exact signed?_decimal n
    | negSucc n =>
      have htext : (signedDecimal (.negSucc n)).toList = '-' :: (decimal (n + 1)).toList := by
        simp [signedDecimal]
      rw [htext, Int.negSucc_eq]
      simp [signed?, natural?_decimal]
  rw [int64?, hsigned, Option.filter_some, if_pos]
  simp [hlo, hhi]

end Numeral

/-- There is a word for the number, and an operand for the word. -/
def SecondOperand.Expressible (v : Int) : Prop :=
  (-0x80000000 ≤ v ∧ v < 0x100000000)
    ∧ ∃ imm rotate, Gives imm rotate (v % 0x100000000).toNat

namespace Operand

variable {text : String} {v : Int}

theorem toNat_ofInt_word (v : Int) : (BitVec.ofInt 32 v).toNat = (v % 0x100000000).toNat :=
  BitVec.toNat_ofInt v

theorem readSecondOperand_literal (htext : Numeral.int64? text.toList = some v) :
    readSecondOperand ⟨.literal, text⟩ [] = (do
      let value ← wordOf v
      match SecondOperand.ofValue? value with
      | some operand => .ok operand
      | none => .error (.unencodable v)) := by
  have hnumber : readNumber ⟨.literal, text⟩ = .ok v := by simp [readNumber, htext]
  rw [readSecondOperand, if_pos rfl, hnumber]
  rfl

/-- What can be expressed is read as the operand with the least rotation. -/
theorem readSecondOperand_of_expressible (htext : Numeral.int64? text.toList = some v)
    (hv : SecondOperand.Expressible v) :
    ∃ h : ∃ rotate, SecondOperand.Rotation (BitVec.ofInt 32 v) rotate,
      readSecondOperand ⟨.literal, text⟩ []
        = .ok (SecondOperand.leastImmediate (BitVec.ofInt 32 v) h) := by
  obtain ⟨hrange, imm, rotate, hgives⟩ := hv
  rw [← toNat_ofInt_word] at hgives
  refine ⟨⟨rotate, hgives.rotation⟩, ?_⟩
  have hword : wordOf v = .ok (BitVec.ofInt 32 v) := by
    rw [wordOf, if_neg (by omega)]
  rw [readSecondOperand_literal htext, hword, ok_bind,
    SecondOperand.ofValue?_eq ⟨rotate, hgives.rotation⟩]

/-- Anything else is refused, and the number is reported as it is. -/
theorem readSecondOperand_of_not_expressible (htext : Numeral.int64? text.toList = some v)
    (hv : ¬ SecondOperand.Expressible v) :
    readSecondOperand ⟨.literal, text⟩ [] = .error (.unencodable v) := by
  rw [readSecondOperand_literal htext, wordOf]
  split
  · rfl
  · rename_i hrange
    have hnone : SecondOperand.ofValue? (BitVec.ofInt 32 v) = none := by
      apply SecondOperand.ofValue?_eq_none
      intro h
      obtain ⟨imm, rotate, _, hgives, _⟩ := SecondOperand.exists_leastImmediate h
      rw [toNat_ofInt_word] at hgives
      exact hv ⟨by omega, _, _, hgives⟩
    rw [ok_bind, hnone]

end Operand

/-! ## The line -/

namespace Statement

/-- Tokens that begin a data-processing line, and the instruction that a second operand makes
of them. -/
inductive Introduces : List Token → (SecondOperand → DataProcessing) → Prop
  | threeOperand {head t0 t1 : Token} {name : String} {opcode : Opcode} {rd rn : Register} :
    Mnemonic.ofName? head.text = some ⟨name, .threeOperand opcode⟩ →
    Register.ofName? t0.text = some rd → Register.ofName? t1.text = some rn →
    Introduces [head, t0, t1] fun operand => ⟨.al, opcode, true, rn, rd, operand⟩
  | move {head t0 : Token} {name : String} {rd : Register} :
    Mnemonic.ofName? head.text = some ⟨name, .twoOperand .mov⟩ →
    Register.ofName? t0.text = some rd →
    Introduces [head, t0] fun operand => ⟨.al, .mov, true, .r0, rd, operand⟩
  | comparison {head t0 : Token} {name : String} {opcode : Opcode} {rn : Register} :
    Mnemonic.ofName? head.text = some ⟨name, .twoOperand opcode⟩ → opcode ≠ .mov →
    Register.ofName? t0.text = some rn →
    Introduces [head, t0] fun operand => ⟨.al, opcode, true, rn, .r0, operand⟩

variable {labels : SymbolTable} {pool : LiteralPool} {addr : Word} {line : List Token}
  {build : SecondOperand → DataProcessing}

/-- The answer for such a line is the answer for its operand. -/
theorem assemble_of_introduces (h : Introduces line build) (t : Token) :
    (assemble labels pool addr (line ++ [t])).1
      = (Operand.readSecondOperand t []).map fun operand => .dataProcessing (build operand) := by
  cases h with
  | threeOperand hmnemonic hrd hrn =>
    simp only [assemble, parse, hmnemonic, parseOperands, List.cons_append, List.nil_append,
      Operand.readRegister, hrd, hrn, ok_bind]
    cases Operand.readSecondOperand t [] with
    | error e => rfl
    | ok operand => rfl
  | move hmnemonic hrd =>
    simp only [assemble, parse, hmnemonic, parseOperands, List.cons_append, List.nil_append,
      Operand.readRegister, hrd, ok_bind]
    cases Operand.readSecondOperand t [] with
    | error e => rfl
    | ok operand => rfl
  | comparison hmnemonic hopcode hrn =>
    simp only [assemble, parse, hmnemonic, parseOperands, List.cons_append, List.nil_append,
      Operand.readRegister, hrn, ok_bind, if_neg hopcode]
    cases Operand.readSecondOperand t [] with
    | error e => rfl
    | ok operand => rfl

/-- The answer that a data-processing line ending in the number `v` ought to get. -/
structure AnswersNumber (v : Int) (build : SecondOperand → DataProcessing)
    (answer : Except SourceError Instruction) : Prop where
  accepted : (∃ i, answer = .ok i) ↔ SecondOperand.Expressible v
  /-- The operand of the instruction has the least rotation and stands for the word of `v`. -/
  operand : ∀ i, answer = .ok i → ∃ (imm : Byte) (rotate : BitVec 8),
    i = .dataProcessing (build (.immediate imm rotate))
      ∧ SecondOperand.Gives imm.toNat rotate.toNat (v % 0x100000000).toNat
      ∧ (∀ imm' rotate', SecondOperand.Gives imm' rotate' (v % 0x100000000).toNat →
        rotate.toNat ≤ rotate')
      ∧ (SecondOperand.immediate imm rotate).Denotes (v % 0x100000000).toNat
  refused : (∀ i, answer ≠ .ok i) → answer = .error (.unencodable v)

/--
**A number is a second operand iff a turned byte can express it.** Every number of 64
bits can be written. However it is written, a data-processing line that ends in it is
accepted iff it is expressible; then the instruction has the least rotation, and its
operand is the number modulo 2^32 in execution, in the encoded word and in the
disassembly. Otherwise the report names the number.
-/
theorem assemble_number (v : Int) :
    (-0x8000000000000000 ≤ v ∧ v < 0x8000000000000000 →
        Numeral.int64? (Numeral.signedDecimal v).toList = some v)
      ∧ ∀ (labels : SymbolTable) (pool : LiteralPool) (addr : Word) (line : List Token)
        (build : SecondOperand → DataProcessing) (text : String),
        Introduces line build → Numeral.int64? text.toList = some v →
          AnswersNumber v build (assemble labels pool addr (line ++ [⟨.literal, text⟩])).1 := by
  refine ⟨fun hv => Numeral.int64?_signedDecimal hv.1 hv.2, ?_⟩
  intro labels pool addr line build text hline htext
  rw [assemble_of_introduces hline]
  by_cases hv : SecondOperand.Expressible v
  · obtain ⟨h, hread⟩ := Operand.readSecondOperand_of_expressible htext hv
    obtain ⟨imm, rotate, heq, hgives, hleast, hdenotes⟩ := SecondOperand.exists_leastImmediate h
    rw [hread, heq, Except.map]
    rw [Operand.toNat_ofInt_word] at hgives hleast hdenotes
    rw [heq] at hdenotes
    refine ⟨iff_of_true ⟨_, rfl⟩ hv, ?_, fun hnone => absurd rfl (hnone _)⟩
    intro i hi
    cases hi
    exact ⟨imm, rotate, rfl, hgives, hleast, hdenotes⟩
  · rw [Operand.readSecondOperand_of_not_expressible htext hv, Except.map]
    exact ⟨iff_of_false (by simp) hv, by simp, fun _ => rfl⟩

/-- The word `0xF000000F`, written as a negative number, is a byte that is turned across the end
of the word. -/
theorem assemble_number_negative :
    Introduces [⟨.name, "add"⟩, ⟨.name, "r1"⟩, ⟨.name, "r13"⟩]
        (fun operand => ⟨.al, .add, true, .sp, .r1, operand⟩)
      ∧ (-0x8000000000000000 ≤ (-268435441 : Int) ∧ (-268435441 : Int) < 0x8000000000000000)
      ∧ Numeral.int64? "-268435441".toList = some (-268435441)
      ∧ SecondOperand.Expressible (-268435441)
      ∧ AnswersNumber (-268435441) (fun operand => ⟨.al, .add, true, .sp, .r1, operand⟩)
        (assemble .empty (.empty 4) 0
          ([⟨.name, "add"⟩, ⟨.name, "r1"⟩, ⟨.name, "r13"⟩] ++ [⟨.literal, "-268435441"⟩])).1 := by
  have hline : Introduces [⟨.name, "add"⟩, ⟨.name, "r1"⟩, ⟨.name, "r13"⟩]
      (fun operand => ⟨.al, .add, true, .sp, .r1, operand⟩) :=
    .threeOperand rfl rfl rfl
  have hrange : -0x8000000000000000 ≤ (-268435441 : Int)
      ∧ (-268435441 : Int) < 0x8000000000000000 := by decide
  obtain ⟨hnumeral, hanswers⟩ := assemble_number (-268435441)
  have htext : Numeral.int64? "-268435441".toList = some (-268435441) := hnumeral hrange
  exact ⟨hline, hrange, htext, ⟨by decide, 0xFF, 2, by decide, by decide, by decide⟩,
    hanswers _ _ _ _ _ _ hline htext⟩

end Statement

end Armlet
