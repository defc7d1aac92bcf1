import Armlet.Proofs.Layout
import Armlet.Proofs.Operands

/-!
# What lines say, by their texts

Four kinds of lines are told apart by their texts: one without a mnemonic, a branch
`b label`, with or without a condition in its mnemonic, a constant `ldr rd, =e`,
and any other. For the first three the texts are also enough to say what the line
does, whatever it is encoded to. Any other line does what its instruction does.

`Statement.said?` says this without the table of mnemonics and the shapes of their
operands. The assembler goes by the table, and it comes to the same
(`said?_of_parse`): the table has the branches with the conditions that they are
spelled with, and `parse_cases` lists all that a line can be read as.
-/

namespace Armlet

namespace Mnemonic

/-- The condition under which a branch is taken, by its mnemonic. -/
def branchCondition? : String → Option Condition
  | "b" => some .al
  | "beq" => some .eq
  | "bne" => some .ne
  | "bge" => some .ge
  | "blt" => some .lt
  | "bgt" => some .gt
  | "ble" => some .le
  | _ => none

/-- **The table of mnemonics has these branches with these conditions, and no others.** -/
theorem branchCondition?_eq_some_iff {text : String} {cond : Condition} :
    branchCondition? text = some cond
      ↔ ∃ m, ofName? text = some m ∧ m.shape = .branch cond := by
  constructor
  · intro h
    unfold branchCondition? at h
    split at h <;> cases h
    all_goals exact ⟨_, rfl, rfl⟩
  · rintro ⟨⟨name, shape⟩, hm, rfl⟩
    obtain ⟨hmem, rfl⟩ := mem_of_ofName? hm
    simp only [all, List.mem_cons, List.not_mem_nil, Mnemonic.mk.injEq, Shape.branch.injEq,
      reduceCtorEq, and_false, false_or, or_false] at hmem
    rcases hmem with ⟨rfl, rfl⟩ | ⟨rfl, rfl⟩ | ⟨rfl, rfl⟩ | ⟨rfl, rfl⟩ | ⟨rfl, rfl⟩ | ⟨rfl, rfl⟩ |
      ⟨rfl, rfl⟩
    all_goals rfl

/-- Only one mnemonic loads. -/
theorem name_of_load {name : String} {m : Mnemonic}
    (h : Mnemonic.ofName? name = some m) (hshape : m.shape = .transfer true) : name = "ldr" := by
  obtain ⟨hmem, hname⟩ := mem_of_ofName? h
  have hall : ∀ m' ∈ Mnemonic.all, m'.shape = .transfer true → m'.name = "ldr" := by decide
  rw [← hname, hall m hmem hshape]

end Mnemonic

namespace Statement

/-! ## The texts of a line -/

/-- The condition and the target of a line `b label`. -/
def branchTo? (labels : SymbolTable) : List Token → Option (Condition × Word)
  | [head, name] => do
    let cond ← Mnemonic.branchCondition? head.text
    let target ← labels.find? name.text
    some (cond, target)
  | _ => none

/-- The register and the value of a line `ldr rd, =e`. -/
def constantLoad? (labels : SymbolTable) : List Token → Option (Register × Word)
  | [head, register, e] =>
    if head.text = "ldr" ∧ e.kind = .expression then do
      let rd ← Register.ofName? register.text
      let value ← (Operand.readExpression labels e.text).toOption
      some (rd, value)
    else none
  | _ => none

/-- What a line says by its texts, or else by the instruction it has been encoded to. -/
def said? (labels : SymbolTable) (instruction? : Option Instruction) :
    List Token → Option Statement
  | [] => some .blank
  | head :: operands =>
    match branchTo? labels (head :: operands) with
    | some (cond, target) => some (.branchTo cond target)
    | none =>
      match constantLoad? labels (head :: operands) with
      | some (rd, value) => some (.loadConstant rd value)
      | none => instruction?.map .instruction

variable {labels : SymbolTable} {line : List Token} {cond : Condition} {target : Word}
  {rd : Register} {v : Word} {s : Statement}

theorem branchTo?_eq_some_iff : branchTo? labels line = some (cond, target)
    ↔ ∃ head name, line = [head, name] ∧ Mnemonic.branchCondition? head.text = some cond
      ∧ labels.find? name.text = some target := by
  constructor
  · intro h
    unfold branchTo? at h
    split at h
    · rename_i head name
      obtain ⟨cond', hcond, hrest⟩ := Option.bind_eq_some_iff.mp h
      obtain ⟨target', htarget, heq⟩ := Option.bind_eq_some_iff.mp hrest
      cases heq
      exact ⟨head, name, rfl, hcond, htarget⟩
    · cases h
  · rintro ⟨head, name, rfl, hcond, htarget⟩
    simp only [branchTo?, hcond, htarget]
    rfl

theorem constantLoad?_eq_some_iff : constantLoad? labels line = some (rd, v)
    ↔ ∃ head register e, line = [head, register, e] ∧ head.text = "ldr" ∧ e.kind = .expression
      ∧ Register.ofName? register.text = some rd
      ∧ Operand.readExpression labels e.text = .ok v := by
  constructor
  · intro h
    unfold constantLoad? at h
    split at h
    · rename_i head register e
      split at h
      · rename_i hhead
        obtain ⟨rd', hrd, hrest⟩ := Option.bind_eq_some_iff.mp h
        obtain ⟨v', hv, heq⟩ := Option.bind_eq_some_iff.mp hrest
        cases heq
        refine ⟨head, register, e, rfl, hhead.1, hhead.2, hrd, ?_⟩
        cases hread : Operand.readExpression labels e.text with
        | error err =>
          rw [hread] at hv
          cases hv
        | ok w =>
          rw [hread] at hv
          exact congrArg Except.ok (Option.some.inj hv)
      · cases h
    · cases h
  · rintro ⟨head, register, e, rfl, hhead, hkind, hrd, hv⟩
    simp only [constantLoad?, hhead, hkind, hrd, hv, and_self, if_true]
    rfl

/-! ## What the assembler reads -/

/-- **What a line can be read as**, by its texts. -/
theorem parse_cases (h : parse labels line = .ok s) :
    (line = [] ∧ s = .blank)
      ∨ (∃ cond target, branchTo? labels line = some (cond, target) ∧ s = .branchTo cond target)
      ∨ (∃ rd v, constantLoad? labels line = some (rd, v) ∧ s = .loadConstant rd v)
      ∨ ∃ i, s = .instruction i := by
  cases line with
  | nil =>
    cases h
    exact .inl ⟨rfl, rfl⟩
  | cons head operands =>
    rw [parse] at h
    split at h
    · rename_i m hm
      rcases parseOperands_cases h with ⟨i, hi, _⟩ |
        ⟨cond, target, name, rfl, hshape, rfl, htarget⟩ |
        ⟨rd, v, register, e, rfl, hshape, rfl, hkind, hrd, hv⟩
      · exact .inr (.inr (.inr ⟨i, hi⟩))
      · have hcond := Mnemonic.branchCondition?_eq_some_iff.mpr ⟨m, hm, hshape⟩
        have hbranch := branchTo?_eq_some_iff.mpr
          ⟨head, name, rfl, hcond, SymbolTable.lookup_eq_ok_iff.mp htarget⟩
        exact .inr (.inl ⟨cond, target, hbranch, rfl⟩)
      · have hload := constantLoad?_eq_some_iff.mpr
          ⟨head, register, e, rfl, Mnemonic.name_of_load hm hshape, hkind, hrd, hv⟩
        exact .inr (.inr (.inl ⟨rd, v, hload, rfl⟩))
    · cases h

theorem parse_eq_branchTo_iff :
    parse labels line = .ok (.branchTo cond target)
      ↔ branchTo? labels line = some (cond, target) := by
  constructor
  · intro h
    rcases parse_cases h with ⟨_, hs⟩ | ⟨cond', target', hbranch, hs⟩ | ⟨rd', v', _, hs⟩ | ⟨i, hs⟩
    all_goals cases hs
    exact hbranch
  · intro h
    obtain ⟨head, name, rfl, hcond, htarget⟩ := branchTo?_eq_some_iff.mp h
    obtain ⟨⟨text, shape⟩, hm, rfl⟩ := Mnemonic.branchCondition?_eq_some_iff.mp hcond
    have hlookup := SymbolTable.lookup_eq_ok_iff.mpr htarget
    rw [parse, hm]
    simp only [parseOperands, Operand.nothingLeft, ok_bind, hlookup]

theorem parse_eq_loadConstant_iff :
    parse labels line = .ok (.loadConstant rd v) ↔ constantLoad? labels line = some (rd, v) := by
  constructor
  · intro h
    rcases parse_cases h with ⟨_, hs⟩ | ⟨cond', target', _, hs⟩ | ⟨rd', v', hload, hs⟩ | ⟨i, hs⟩
    all_goals cases hs
    exact hload
  · intro h
    obtain ⟨head, register, e, rfl, hhead, hkind, hrd, hv⟩ := constantLoad?_eq_some_iff.mp h
    have hm : Mnemonic.ofName? "ldr" = some ⟨"ldr", .transfer true⟩ := rfl
    have hreg := Operand.readRegister_eq_ok_iff.mpr hrd
    rw [parse, hhead, hm]
    simp only [parseOperands, hreg, ok_bind, parseTransfer, hkind, if_true, Operand.nothingLeft, hv]

/-- **A line is read as what its texts say**, given the instruction it is encoded to. -/
theorem said?_of_parse {pool : LiteralPool} {addr : Word} {i : Instruction}
    (h : parse labels line = .ok s) (hi : (s.encode pool addr).1 = .ok i) :
    said? labels (some i) line = some s := by
  cases line with
  | nil =>
    cases h
    rfl
  | cons head operands =>
    rw [said?]
    split
    · rename_i cond target hbranch
      rw [parse_eq_branchTo_iff.mpr hbranch] at h
      exact congrArg some (Except.ok.inj h)
    · rename_i hbranch
      split
      · rename_i rd v hload
        rw [parse_eq_loadConstant_iff.mpr hload] at h
        exact congrArg some (Except.ok.inj h)
      · rename_i hload
        -- by now the line is known to be an instruction outright
        rcases parse_cases h with ⟨hnil, _⟩ | ⟨_, _, hsome, _⟩ | ⟨_, _, hsome, _⟩ | ⟨i', rfl⟩
        · cases hnil
        · cases hbranch.symm.trans hsome
        · cases hload.symm.trans hsome
        · cases hi
          rfl

end Statement

end Armlet
