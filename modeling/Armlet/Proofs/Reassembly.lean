import Armlet.Assembler.Program
import Armlet.Instruction.Text
import Armlet.Proofs.Canonical
import Armlet.Proofs.Operands
import Armlet.Proofs.RegisterNames

/-!
# Assembling a disassembly

The text of an instruction is built from the texts of its operands, and the
assembler reads a line operand by operand, so the proof goes operand by operand as
well. For each kind of operand one lemma says both which tokens its text spells and
what is read from these tokens. It says so in one breath because the tokens are of
no interest by themselves.

All instructions but branches are covered as long as they are unconditional. A
branch is shown by a distance, which the assembler has no syntax for, and there
are no mnemonics with other conditions.
-/

namespace Armlet

open Token (Spells Plain Gap)

/-! ## Names -/

theorem Register.plain_name (r : Register) : Plain r.name := by cases r <;> decide

theorem Register.spells_name (r : Register) : Spells r.name [⟨.name, r.name⟩] :=
  r.plain_name.spells_name

theorem ShiftType.plain_name (kind : ShiftType) : Plain kind.name := by cases kind <;> decide

theorem ShiftType.ofName?_name (kind : ShiftType) : ofName? kind.name = some kind := by
  cases kind <;> rfl

theorem Opcode.plain_name (op : Opcode) : Plain op.name := by cases op <;> decide

/-- What is written in front of a displacement. -/
def Displacement.sign (up : Bool) : String := if up then "" else "-"

theorem Displacement.plain_signed (up : Bool) {w : String} (hw : Plain w) :
    Plain (sign up ++ w) := by
  cases up with
  | true =>
    rw [sign, if_pos rfl, String.empty_append]
    exact hw
  | false => exact Token.plain_append (by decide) hw

namespace Operand

theorem readRegister_name (r : Register) : readRegister ⟨.name, r.name⟩ = .ok r := by
  rw [readRegister, Register.ofName?_name]

theorem readNumber_decimal {n : Nat} (h : n < 0x8000000000000000) :
    readNumber ⟨.literal, Numeral.decimal n⟩ = .ok (n : Int) := by
  simp [readNumber, Numeral.int64?_decimal h]

theorem readNumber_signed (up : Bool) {n : Nat} (h : n < 0x8000000000000000) :
    readNumber ⟨.literal, Displacement.sign up ++ Numeral.decimal n⟩
      = .ok (if up then (n : Int) else -(n : Int)) := by
  cases up with
  | true => exact readNumber_decimal h
  | false => simp [readNumber, Displacement.sign, Numeral.int64?_neg_decimal h]

/-- Every word is the word of its value. -/
theorem wordOf_toNat (w : Word) : wordOf (w.toNat : Int) = .ok w := by
  have := w.isLt
  rw [wordOf, if_neg (by omega), BitVec.ofInt_natCast, BitVec.ofNat_toNat, BitVec.setWidth_eq]

theorem readShift_amount {kind : ShiftType} {n : BitVec 8} (h : n.toNat ≤ 31) :
    readShift kind ⟨.literal, Numeral.decimal n.toNat⟩ = .ok (.amount kind n) := by
  rw [readShift, if_pos (by rfl), readNumber_decimal (by omega), ok_bind, if_neg (by omega),
    BitVec.ofInt_natCast, BitVec.ofNat_toNat, BitVec.setWidth_eq]

theorem readShift_register (kind : ShiftType) (rs : Register) :
    readShift kind ⟨.name, rs.name⟩ = .ok (.register kind rs) := by
  rw [readShift, if_neg (by simp), readRegister_name, ok_bind]

/-- The name of a register has no sign of its own. -/
theorem signedName_signed (up : Bool) (r : Register) :
    signedName (Displacement.sign up ++ r.name) = (up, r.name) := by
  cases up <;> cases r <;> rfl

end Operand

/-! ## Operands -/

theorem gap_comma : Gap ", " := by decide

theorem gap_blank : Gap " " := by decide

theorem RegisterOperand.text_amount {rm : Register} {kind : ShiftType} {n : BitVec 8} (h : n ≠ 0) :
    text ⟨rm, .amount kind n⟩
      = rm.name ++ ", " ++ kind.name ++ " #" ++ Numeral.decimal n.toNat := if_neg h

/-- A register operand, perhaps with a sign in front of it, is read back but for the sign. -/
theorem RegisterOperand.exists_spells {operand : RegisterOperand} (h : operand.shift.Fits)
    {sign : String} (hsign : Plain (sign ++ operand.rm.name)) :
    ∃ rest, Spells (sign ++ operand.text) (⟨.name, sign ++ operand.rm.name⟩ :: rest)
      ∧ Operand.readShifted ⟨.name, operand.rm.name⟩ rest = .ok operand.canonical := by
  obtain ⟨rm, shift⟩ := operand
  have hrm := hsign.spells_name
  cases shift with
  | amount kind n =>
    by_cases hn : n = 0
    · -- not shifted
      subst hn
      refine ⟨[], hrm, ?_⟩
      rw [Operand.readShifted, Operand.readRegister_name, ok_bind]
      rfl
    · have htext : sign ++ text ⟨rm, .amount kind n⟩
          = sign ++ rm.name ++ ", " ++ kind.name ++ " " ++ ("#" ++ Numeral.decimal n.toNat) := by
        rw [text_amount hn, show " #" = " " ++ "#" from rfl]
        simp only [String.append_assoc]
      refine ⟨[⟨.name, kind.name⟩, ⟨.literal, Numeral.decimal n.toNat⟩], ?_, ?_⟩
      · rw [htext]
        exact (hrm.append gap_comma kind.plain_name.spells_name).append gap_blank
          (Token.plain_decimal n.toNat).spells_literal
      · rw [Operand.readShifted, Operand.readRegister_name, ok_bind]
        simp only [ShiftType.ofName?_name, Operand.nothingLeft, Operand.readShift_amount h, ok_bind]
        rw [canonical, Shift.canonical_amount hn]
  | register kind rs =>
    have htext : sign ++ text ⟨rm, .register kind rs⟩
        = sign ++ rm.name ++ ", " ++ kind.name ++ " " ++ rs.name := by
      simp only [text, String.append_assoc]
    refine ⟨[⟨.name, kind.name⟩, ⟨.name, rs.name⟩], ?_, ?_⟩
    · rw [htext]
      exact (hrm.append gap_comma kind.plain_name.spells_name).append gap_blank rs.spells_name
    · rw [Operand.readShifted, Operand.readRegister_name, ok_bind]
      simp only [ShiftType.ofName?_name, Operand.nothingLeft, Operand.readShift_register, ok_bind]
      rfl

theorem SecondOperand.exists_spells {operand : SecondOperand} (h : operand.Fits) :
    ∃ first rest, Spells operand.text (first :: rest)
      ∧ Operand.readSecondOperand first rest = .ok operand.canonical := by
  cases operand with
  | immediate imm rotate =>
    have hlt := (immediateValue imm rotate).isLt
    refine ⟨_, [], (Token.plain_decimal _).spells_literal, ?_⟩
    rw [Operand.readSecondOperand, if_pos (by rfl), Operand.readNumber_decimal (by omega), ok_bind,
      Operand.nothingLeft, ok_bind, Operand.wordOf_toNat, ok_bind,
      ofValue?_eq ⟨_, rotation_immediateValue imm rotate⟩]
    rfl
  | register operand =>
    have hplain : Plain ("" ++ operand.rm.name) := by
      rw [String.empty_append]
      exact operand.rm.plain_name
    obtain ⟨rest, hspells, hread⟩ := RegisterOperand.exists_spells h hplain
    rw [String.empty_append, String.empty_append] at hspells
    refine ⟨_, rest, hspells, ?_⟩
    rw [Operand.readSecondOperand, if_neg (by simp), hread, ok_bind]
    rfl

theorem Displacement.text?_eq_none_iff {up : Bool} {d : Displacement} :
    d.text? up = none ↔ d = .immediate 0 := by
  cases d with
  | immediate bytes => simp [text?]
  | register operand => simp [text?]

/-- A displacement that is shown is read back with its direction. -/
theorem Displacement.exists_spells {up : Bool} {d : Displacement} (h : d.Fits) {text : String}
    (htext : d.text? up = some text) :
    ∃ tokens, Spells text tokens ∧ Operand.readDisplacement tokens = .ok (up, d.canonical) := by
  cases d with
  | immediate bytes =>
    have hle : bytes.toNat ≤ 4095 := h
    have hne : bytes ≠ 0 := by
      rintro rfl
      cases htext
    have hpos : 0 < bytes.toNat := by
      rw [Nat.pos_iff_ne_zero]
      intro hzero
      exact hne (BitVec.eq_of_toNat_eq hzero)
    rw [text?, if_neg hne, String.append_assoc] at htext
    obtain rfl := Option.some.inj htext
    refine ⟨_, (plain_signed up (Token.plain_decimal bytes.toNat)).spells_literal, ?_⟩
    -- the sign is the direction because the number is not zero
    have habs : (if up then (bytes.toNat : Int) else -(bytes.toNat : Int)).natAbs
        = bytes.toNat := by
      cases up <;> simp
    have hup : decide (0 ≤ if up then (bytes.toNat : Int) else -(bytes.toNat : Int)) = up := by
      cases up with
      | true => simp
      | false =>
        simp
        omega
    rw [Operand.readDisplacement, if_pos (by rfl), Operand.nothingLeft, ok_bind,
      Operand.readNumber_signed up (by omega), ok_bind, habs, if_neg (by omega), hup,
      BitVec.ofNat_toNat, BitVec.setWidth_eq]
    rfl
  | register operand =>
    obtain ⟨rest, hspells, hread⟩ :=
      RegisterOperand.exists_spells h (plain_signed up operand.rm.plain_name)
    obtain rfl := Option.some.inj htext
    refine ⟨_, hspells, ?_⟩
    rw [Operand.readDisplacement, if_neg (by simp), Operand.signedName_signed]
    dsimp only
    rw [hread, ok_bind]
    rfl

/-! ## Instructions -/

/-- The text is a line that says the canonical instruction, whatever the labels are. -/
def Instruction.ReadsBack (i : Instruction) : Prop :=
  ∃ first rest, Spells i.text (first :: rest)
    ∧ ∀ labels, Statement.parse labels (first :: rest) = .ok (.instruction i.canonical)

/-- A mnemonic and what it makes of its operands. -/
theorem Instruction.ReadsBack.of_operands {i : Instruction} {name args : String} {m : Mnemonic}
    {operands : List Token} (htext : i.text = name ++ " " ++ args) (hname : Plain name)
    (hm : Mnemonic.ofName? name = some m) (hargs : Spells args operands)
    (hparse : ∀ labels,
      Statement.parseOperands labels m operands = .ok (.instruction i.canonical)) :
    i.ReadsBack := by
  refine ⟨⟨.name, name⟩, operands, ?_, ?_⟩
  · rw [htext]
    exact hname.spells_name.append gap_blank hargs
  · intro labels
    rw [Statement.parse, hm]
    exact hparse labels

namespace DataProcessing

variable {opcode : Opcode} {setFlags : Bool} {rn rd : Register} {operand : SecondOperand}

/-- The three forms of a data-processing line. -/
theorem text_eq : Instruction.text (.dataProcessing ⟨.al, opcode, setFlags, rn, rd, operand⟩)
    = opcode.name ++ " " ++
      if opcode = .mov then rd.name ++ ", " ++ operand.text
      else if opcode.keepsResult then rd.name ++ ", " ++ rn.name ++ ", " ++ operand.text
      else rn.name ++ ", " ++ operand.text := by
  cases opcode <;> rfl

/-- The same three forms as the assembler knows them. -/
theorem ofName?_name : Mnemonic.ofName? opcode.name = some ⟨opcode.name,
    if opcode = .mov then .twoOperand opcode
    else if opcode.keepsResult then .threeOperand opcode
    else .twoOperand opcode⟩ := by
  cases opcode <;> rfl

theorem readsBack_move (h : operand.Fits) :
    (Instruction.dataProcessing ⟨.al, .mov, setFlags, rn, rd, operand⟩).ReadsBack := by
  obtain ⟨first, rest, hspells, hread⟩ := SecondOperand.exists_spells h
  have hargs : Spells (rd.name ++ ", " ++ operand.text) (⟨.name, rd.name⟩ :: first :: rest) :=
    rd.spells_name.append gap_comma hspells
  refine .of_operands text_eq (Opcode.plain_name .mov) ofName?_name hargs ?_
  intro labels
  simp only [if_true, Statement.parseOperands, Operand.readRegister_name, hread, ok_bind]
  rfl

theorem readsBack_comparison (hop : opcode.keepsResult = false) (h : operand.Fits) :
    (Instruction.dataProcessing ⟨.al, opcode, setFlags, rn, rd, operand⟩).ReadsBack := by
  have hmov : opcode ≠ .mov := by
    rintro rfl
    cases hop
  have hnot : ¬ opcode.keepsResult = true := by rw [hop]; exact Bool.false_ne_true
  obtain ⟨first, rest, hspells, hread⟩ := SecondOperand.exists_spells h
  have htext : Instruction.text (.dataProcessing ⟨.al, opcode, setFlags, rn, rd, operand⟩)
      = opcode.name ++ " " ++ (rn.name ++ ", " ++ operand.text) := by
    rw [text_eq, if_neg hmov, if_neg hnot]
  have hm : Mnemonic.ofName? opcode.name = some ⟨opcode.name, .twoOperand opcode⟩ := by
    rw [ofName?_name, if_neg hmov, if_neg hnot]
  have hargs : Spells (rn.name ++ ", " ++ operand.text) (⟨.name, rn.name⟩ :: first :: rest) :=
    rn.spells_name.append gap_comma hspells
  refine .of_operands htext opcode.plain_name hm hargs ?_
  intro labels
  simp only [Statement.parseOperands, Operand.readRegister_name, hread, ok_bind, if_neg hmov]
  rw [Statement.process, Instruction.canonical, canonical, if_neg hmov, if_neg hnot]

theorem readsBack_threeOperand (hop : opcode.keepsResult = true) (hmov : opcode ≠ .mov)
    (h : operand.Fits) :
    (Instruction.dataProcessing ⟨.al, opcode, setFlags, rn, rd, operand⟩).ReadsBack := by
  obtain ⟨first, rest, hspells, hread⟩ := SecondOperand.exists_spells h
  have htext : Instruction.text (.dataProcessing ⟨.al, opcode, setFlags, rn, rd, operand⟩)
      = opcode.name ++ " " ++ (rd.name ++ ", " ++ rn.name ++ ", " ++ operand.text) := by
    rw [text_eq, if_neg hmov, if_pos hop]
  have hm : Mnemonic.ofName? opcode.name = some ⟨opcode.name, .threeOperand opcode⟩ := by
    rw [ofName?_name, if_neg hmov, if_pos hop]
  have hargs : Spells (rd.name ++ ", " ++ rn.name ++ ", " ++ operand.text)
      (⟨.name, rd.name⟩ :: ⟨.name, rn.name⟩ :: first :: rest) :=
    (rd.spells_name.append gap_comma rn.spells_name).append gap_comma hspells
  refine .of_operands htext opcode.plain_name hm hargs ?_
  intro labels
  simp only [Statement.parseOperands, Operand.readRegister_name, hread, ok_bind]
  rw [Statement.process, Instruction.canonical, canonical, if_neg hmov, if_pos hop]

theorem readsBack (h : operand.Fits) :
    (Instruction.dataProcessing ⟨.al, opcode, setFlags, rn, rd, operand⟩).ReadsBack := by
  by_cases hmov : opcode = .mov
  · subst hmov
    exact readsBack_move h
  · cases hop : opcode.keepsResult with
    | true => exact readsBack_threeOperand hop hmov h
    | false => exact readsBack_comparison hop h

end DataProcessing

theorem Multiply.readsBack {accumulate setFlags : Bool} {rd rn rs rm : Register} :
    (Instruction.multiply ⟨.al, accumulate, setFlags, rd, rn, rs, rm⟩).ReadsBack := by
  have hfactors : Spells (rd.name ++ ", " ++ rm.name ++ ", " ++ rs.name)
      [⟨.name, rd.name⟩, ⟨.name, rm.name⟩, ⟨.name, rs.name⟩] :=
    (rd.spells_name.append gap_comma rm.spells_name).append gap_comma rs.spells_name
  cases accumulate with
  | false =>
    have hplain : Plain "mul" := by decide
    refine .of_operands rfl hplain rfl hfactors ?_
    intro labels
    simp only [Statement.parseOperands, Operand.nothingLeft, Operand.readRegister_name, ok_bind]
    rfl
  | true =>
    have hplain : Plain "mla" := by decide
    have hargs : Spells (rd.name ++ ", " ++ rm.name ++ ", " ++ rs.name ++ ", " ++ rn.name)
        [⟨.name, rd.name⟩, ⟨.name, rm.name⟩, ⟨.name, rs.name⟩, ⟨.name, rn.name⟩] :=
      hfactors.append gap_comma rn.spells_name
    refine .of_operands rfl hplain rfl hargs ?_
    intro labels
    simp only [Statement.parseOperands, Operand.nothingLeft, Operand.readRegister_name, ok_bind]
    rfl

namespace Transfer

variable {load preIndex up : Bool} {rn rd : Register} {displacement : Displacement}

/-- The mnemonic of a transfer. -/
def name (load : Bool) : String := if load then "ldr" else "str"

theorem plain_name (load : Bool) : Plain (name load) := by cases load <;> decide

theorem ofName?_name (load : Bool) :
    Mnemonic.ofName? (name load) = some ⟨name load, .transfer load⟩ := by
  cases load <;> rfl

/-- The operands of a transfer, and what is read behind its base register. -/
theorem exists_spells (h : displacement.Fits) :
    ∃ args tokens, Instruction.text (.transfer ⟨.al, load, preIndex, up, rn, rd, displacement⟩)
        = name load ++ " " ++ args
      ∧ Spells args (⟨.name, rd.name⟩ :: ⟨.name, rn.name⟩ :: tokens)
      ∧ Operand.readDisplacement tokens
        = .ok (up || decide (displacement = .immediate 0), displacement.canonical) := by
  have hsuffix : Condition.suffix .al = "" := rfl
  have hbase : Spells (rd.name ++ ", [" ++ rn.name) [⟨.name, rd.name⟩, ⟨.name, rn.name⟩] :=
    rd.spells_name.append (by decide) rn.spells_name
  cases hd : displacement.text? up with
  | none =>
    obtain rfl := Displacement.text?_eq_none_iff.mp hd
    refine ⟨rd.name ++ ", [" ++ rn.name ++ "]", [], ?_, hbase.closed (by decide), ?_⟩
    · simp only [Instruction.text, text, hd, hsuffix, String.append_assoc, String.empty_append]
      rfl
    · rw [Operand.readDisplacement, decide_eq_true rfl, Bool.or_true]
      rfl
  | some text =>
    obtain ⟨tokens, hspells, hread⟩ := Displacement.exists_spells h hd
    have hne : displacement ≠ .immediate 0 := by
      intro hzero
      rw [Displacement.text?_eq_none_iff.mpr hzero] at hd
      cases hd
    rw [decide_eq_false hne, Bool.or_false]
    cases preIndex with
    | true =>
      refine ⟨rd.name ++ ", [" ++ rn.name ++ ", " ++ text ++ "]", tokens, ?_,
        (hbase.append gap_comma hspells).closed (by decide), hread⟩
      simp only [Instruction.text, Transfer.text, hd, hsuffix, String.append_assoc,
        String.empty_append]
      rfl
    | false =>
      refine ⟨rd.name ++ ", [" ++ rn.name ++ "], " ++ text, tokens, ?_,
        hbase.append (by decide) hspells, hread⟩
      simp only [Instruction.text, Transfer.text, hd, hsuffix, String.append_assoc,
        String.empty_append]
      rfl

theorem readsBack (h : displacement.Fits) :
    (Instruction.transfer ⟨.al, load, preIndex, up, rn, rd, displacement⟩).ReadsBack := by
  obtain ⟨args, tokens, htext, hargs, hread⟩ := exists_spells h
  refine .of_operands htext (plain_name load) (ofName?_name load) hargs ?_
  intro labels
  simp only [Statement.parseOperands, Statement.parseTransfer, Operand.readRegister_name, hread,
    ok_bind]
  rfl

end Transfer

namespace Instruction

theorem readsBack_halt : ReadsBack .halt := by
  have hplain : Plain "andeq" := by decide
  have hargs : Spells "r0, r0, r0" [⟨.name, "r0"⟩, ⟨.name, "r0"⟩, ⟨.name, "r0"⟩] :=
    (Register.r0.spells_name.append gap_comma Register.r0.spells_name).append gap_comma
      Register.r0.spells_name
  refine .of_operands rfl hplain rfl hargs ?_
  intro labels
  rfl

/-- **The text of an unconditional instruction that has a word is read back.** -/
theorem readsBack {i : Instruction} (h : i.Encodable) (hal : i.condition = .al)
    (hbranch : ∀ b, i ≠ .branch b) : i.ReadsBack := by
  cases i with
  | dataProcessing i =>
    obtain ⟨cond, opcode, setFlags, rn, rd, operand⟩ := i
    cases hal
    exact DataProcessing.readsBack h.1
  | multiply i =>
    obtain ⟨cond, accumulate, setFlags, rd, rn, rs, rm⟩ := i
    cases hal
    exact Multiply.readsBack
  | transfer i =>
    obtain ⟨cond, load, preIndex, up, rn, rd, displacement⟩ := i
    cases hal
    exact Transfer.readsBack h
  | branch i => exact absurd rfl (hbranch i)
  | halt => exact readsBack_halt

end Instruction

/-! ## Programs of one line -/

theorem Token.sourceLines_of_spells {text : String} {tokens : List Token}
    (h : Spells text tokens) (hne : tokens ≠ []) : sourceLines text.toList = [text.toList] := by
  have htext : text.toList ≠ [] := by
    intro hnil
    have htokens := h.wordTokens_eq
    rw [hnil] at htokens
    exact hne htokens.symm
  have hpieces : pieces (· == '\n') text.toList = [text.toList] := by
    refine pieces_of_no_cut ?_
    intro c hc
    rw [beq_eq_false_iff_ne]
    rintro rfl
    exact h.oneLine hc
  rw [sourceLines, hpieces]
  simp [htext]

/-- A line that says an instruction outright makes a program of one word. -/
theorem Program.ofSource_of_spells {text : String} {tokens : List Token} {i : Instruction}
    (h : Spells text tokens) (hne : tokens ≠ [])
    (hparse : ∀ labels, Statement.parse labels tokens = .ok (.instruction i)) :
    ofSource text = .ok ⟨[i.encode], .empty⟩ := by
  have hlines : Token.lines (tokenize text) = [tokens] := by
    rw [Token.lines_tokenize, Token.sourceLines_of_spells h hne, List.map_singleton,
      h.wordTokens_eq]
  have hlabels : (Layout.ofTokens (tokenize text)).labels = .empty := by
    have hnone : Token.labelsOf tokens = [] := by
      rw [Token.labelsOf, List.filter_eq_nil_iff]
      intro t ht
      simpa using h.noLabel t ht
    have hbindings : (Layout.ofTokens (tokenize text)).bindings = [] := by
      rw [Layout.bindings_ofTokens, Token.parts_tokenize, Token.sourceLines_of_spells h hne,
        List.map_singleton, h.wordTokens_eq]
      simp [Layout.bindingsFrom, hnone]
      rfl
    rw [Layout.labels, hbindings]
    rfl
  have hwithout : Token.withoutLabels tokens = tokens := by
    rw [Token.withoutLabels, List.filter_eq_self]
    intro t ht
    simpa using h.noLabel t ht
  have hlisting : Listing.ofTokens (Layout.ofTokens (tokenize text)) (tokenize text)
      = ⟨[i], .empty (Layout.ofTokens (tokenize text)).finish, none⟩ := by
    rw [Listing.ofTokens, hlines, Listing.ofLines, hwithout, Statement.assemble, hparse]
    rfl
  rw [ofSource, ofTokens, hlisting, hlabels]
  rfl

theorem Instruction.canonical_ne_branch {i : Instruction} (h : ∀ b, i ≠ .branch b) (b : Branch) :
    i.canonical ≠ .branch b := by
  cases i with
  | branch i => exact absurd rfl (h i)
  | dataProcessing i => simp [canonical]
  | multiply i => simp [canonical]
  | transfer i => simp [canonical]
  | halt => simp [canonical]

theorem Program.ofSource_text_of_encodable {i : Instruction} (h : i.Encodable)
    (hal : i.condition = .al) (hbranch : ∀ b, i ≠ .branch b) :
    ofSource i.text = .ok ⟨[i.canonical.encode], .empty⟩ := by
  obtain ⟨first, rest, hspells, hparse⟩ := Instruction.readsBack h hal hbranch
  exact ofSource_of_spells hspells (List.cons_ne_nil first rest) hparse

/-- **Disassembling and assembling again.** The text of an unconditional instruction, other than
a branch, assembles to one word, that of its canonical form. Doing it once more changes nothing,
and the word is the old one iff the instruction has been canonical. -/
theorem Program.ofSource_text {w : Word} {i : Instruction} (h : Instruction.decode? w = some i)
    (hal : i.condition = .al) (hbranch : ∀ b, i ≠ .branch b) :
    ofSource i.text = .ok ⟨[i.canonical.encode], .empty⟩
      ∧ Instruction.decode? i.canonical.encode = some i.canonical
      ∧ ofSource i.canonical.text = .ok ⟨[i.canonical.encode], .empty⟩
      ∧ (ofSource i.text = .ok ⟨[w], .empty⟩ ↔ i.canonical = i) := by
  have henc : i.Encodable := Instruction.encodable_of_decode? h
  have henc' : i.canonical.Encodable := Instruction.canonical_encodable henc
  have hw : i.encode = w := Instruction.encode_of_decode? h
  have honce := ofSource_text_of_encodable henc hal hbranch
  have hagain := ofSource_text_of_encodable henc' (i.condition_canonical.trans hal)
    (Instruction.canonical_ne_branch hbranch)
  rw [Instruction.canonical_canonical] at hagain
  refine ⟨honce, Instruction.decode?_encode_of_encodable henc', hagain, ?_⟩
  rw [honce, ← hw, ← Instruction.encode_canonical_eq_iff henc]
  simp

/-- A move of 256 that is given as 4 turned by thirteen double places, with the flags left alone
and a register that no move uses. It comes back as 1 turned by twelve. -/
theorem Program.ofSource_text_turned :
    Instruction.decode? 0xE3A51D04
        = some (.dataProcessing ⟨.al, .mov, false, .r5, .r1, .immediate 4 13⟩)
      ∧ ofSource "mov r1, #256" = .ok ⟨[0xE3B01C01], .empty⟩
      ∧ Instruction.decode? 0xE3B01C01
        = some (.dataProcessing ⟨.al, .mov, true, .r0, .r1, .immediate 1 12⟩) := by
  have hdecode : Instruction.decode? 0xE3A51D04
      = some (.dataProcessing ⟨.al, .mov, false, .r5, .r1, .immediate 4 13⟩) := by
    decide +kernel
  have hcanonical : Instruction.canonical
      (.dataProcessing ⟨.al, .mov, false, .r5, .r1, .immediate 4 13⟩)
      = .dataProcessing ⟨.al, .mov, true, .r0, .r1, .immediate 1 12⟩ := by
    decide +kernel
  have hword : Instruction.encode (.dataProcessing ⟨.al, .mov, true, .r0, .r1, .immediate 1 12⟩)
      = 0xE3B01C01 := by
    decide +kernel
  obtain ⟨honce, hcanon, -, -⟩ := Program.ofSource_text hdecode rfl (by simp)
  rw [hcanonical, hword] at honce hcanon
  exact ⟨hdecode, honce, hcanon⟩

end Armlet
