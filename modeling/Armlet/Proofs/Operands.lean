import Armlet.Assembler.Statement
import Armlet.Proofs.Encodable

/-!
# What the assembler reads fits its field

Encoding drops what does not fit, so a field that is read too large would give a
wrong word without any complaint. This file shows that none is: each reader of
an operand checks the range before it narrows a number, and a mnemonic puts no
field into an instruction but those it has read.

What a mnemonic can make of its operands is settled by one case analysis,
`Statement.parseOperands_cases`: an instruction that is encodable, a branch to a
label, or the loading of a constant. `Statement.Legal` is what this comes to for a
line. It says nothing about distances, which are not settled before the line has
an address.
-/

namespace Armlet

/-- A chain of readings that has succeeded has succeeded in its first link and in the rest. -/
theorem of_bind_eq_ok {ε α β : Type} {x : Except ε α} {f : α → Except ε β} {b : β}
    (h : x >>= f = .ok b) : ∃ a, x = .ok a ∧ f a = .ok b := by
  cases x with
  | error e => cases h
  | ok a => exact ⟨a, rfl, h⟩

/-- A chain of readings whose first link has succeeded goes on with the rest. -/
theorem ok_bind {ε α β : Type} (a : α) (f : α → Except ε β) : (Except.ok a >>= f) = f a := rfl

namespace Operand

theorem readRegister_eq_ok_iff {t : Token} {r : Register} :
    readRegister t = .ok r ↔ Register.ofName? t.text = some r := by
  unfold readRegister
  split
  · rename_i r' hr
    simp [hr]
  · rename_i hr
    simp [hr]

theorem nothingLeft_eq_ok_iff {rest : List Token} {u : Unit} :
    nothingLeft rest = .ok u ↔ rest = [] := by
  cases rest with
  | nil => exact iff_of_true rfl rfl
  | cons t ts => exact iff_of_false nofun nofun

theorem readShift_fits {kind : ShiftType} {t : Token} {s : Shift}
    (h : readShift kind t = .ok s) : s.Fits := by
  unfold readShift at h
  split at h
  · -- a constant amount, which is checked
    obtain ⟨n, _, hn⟩ := of_bind_eq_ok h
    split at hn
    · cases hn
    · rename_i hrange
      cases hn
      simp only [Shift.Fits, BitVec.toNat_ofInt]
      omega
  · -- the amount in a register
    obtain ⟨rs, _, hrs⟩ := of_bind_eq_ok h
    cases hrs
    trivial

theorem readShifted_fits {first : Token} {rest : List Token} {operand : RegisterOperand}
    (h : readShifted first rest = .ok operand) : operand.shift.Fits := by
  unfold readShifted at h
  obtain ⟨rm, _, hrm⟩ := of_bind_eq_ok h
  split at hrm
  · cases hrm
    simp [RegisterOperand.unshifted, Shift.identity, Shift.Fits]
  · split at hrm
    · cases hrm
    · cases hrm
    · obtain ⟨_, _, hleft⟩ := of_bind_eq_ok hrm
      obtain ⟨shift, hshift, hok⟩ := of_bind_eq_ok hleft
      cases hok
      exact readShift_fits hshift

/-- The rotations that are tried have four bits. -/
theorem ofValue?_fits {v : Word} {operand : SecondOperand}
    (h : SecondOperand.ofValue? v = some operand) : operand.Fits := by
  unfold SecondOperand.ofValue? at h
  obtain ⟨rotate, hmem, hrot⟩ := List.exists_of_findSome?_eq_some h
  obtain ⟨imm, _, rfl⟩ := Option.map_eq_some_iff.mp hrot
  have hlt : rotate < 16 := List.mem_range.mp hmem
  simp only [SecondOperand.Fits, BitVec.toNat_ofNat]
  omega

theorem readSecondOperand_fits {first : Token} {rest : List Token} {operand : SecondOperand}
    (h : readSecondOperand first rest = .ok operand) : operand.Fits := by
  unfold readSecondOperand at h
  split at h
  · -- a number, for which a rotation has been found
    obtain ⟨n, _, hn⟩ := of_bind_eq_ok h
    obtain ⟨_, _, hleft⟩ := of_bind_eq_ok hn
    obtain ⟨value, _, hvalue⟩ := of_bind_eq_ok hleft
    split at hvalue
    · rename_i hof
      cases hvalue
      exact ofValue?_fits hof
    · cases hvalue
  · -- a register
    obtain ⟨r, hr, hok⟩ := of_bind_eq_ok h
    cases hok
    exact readShifted_fits hr

theorem readDisplacement_fits {ts : List Token} {up : Bool} {d : Displacement}
    (h : readDisplacement ts = .ok (up, d)) : d.Fits := by
  unfold readDisplacement at h
  split at h
  · cases h
    simp [Displacement.Fits]
  · split at h
    · -- a number, whose sign is kept apart from its size
      obtain ⟨_, _, hleft⟩ := of_bind_eq_ok h
      obtain ⟨n, _, hn⟩ := of_bind_eq_ok hleft
      split at hn
      · cases hn
      · rename_i hrange
        cases hn
        simp only [Displacement.Fits, BitVec.toNat_ofNat]
        omega
    · obtain ⟨r, hr, hok⟩ := of_bind_eq_ok h
      cases hok
      exact readShifted_fits hr

end Operand

/-- A mnemonic that is found is in the table, under the name that was looked up. -/
theorem Mnemonic.mem_of_ofName? {name : String} {m : Mnemonic} (h : ofName? name = some m) :
    m ∈ all ∧ m.name = name :=
  ⟨List.mem_of_find?_eq_some h, by simpa using List.find?_some h⟩

namespace Statement

/-- An instruction said outright is encodable, and a branch leads to a label. -/
def Legal (labels : SymbolTable) : Statement → Prop
  | .blank => True
  | .instruction i => i.Encodable
  | .branchTo _ target => ∃ name, labels.lookup name = .ok target
  | .loadConstant _ _ => True

variable {labels : SymbolTable} {s : Statement}

theorem process_encodable {opcode : Opcode} {rd rn : Register} {operand : SecondOperand}
    (h : operand.Fits) : ∃ i, process opcode rd rn operand = .instruction i ∧ i.Encodable :=
  ⟨_, rfl, h, by simp [DataProcessing.zeroWord]⟩

/-- The second half of a transfer is an expression with nothing behind it, or an address. -/
theorem parseTransfer_cases {load : Bool} {rd : Register} {operand : Token} {rest : List Token}
    (h : parseTransfer labels load rd operand rest = .ok s) :
    (∃ i, s = .instruction i ∧ i.Encodable)
      ∨ ∃ value, s = .loadConstant rd value ∧ load = true ∧ operand.kind = .expression
        ∧ rest = [] ∧ Operand.readExpression labels operand.text = .ok value := by
  unfold parseTransfer at h
  split at h
  · -- an expression, which only a load may have
    rename_i hkind
    split at h
    · rename_i hload
      obtain ⟨_, hrest, hleft⟩ := of_bind_eq_ok h
      obtain ⟨value, hvalue, hok⟩ := of_bind_eq_ok hleft
      cases hok
      exact .inr ⟨value, rfl, hload, hkind, Operand.nothingLeft_eq_ok_iff.mp hrest, hvalue⟩
    · cases h
  · -- an address
    obtain ⟨rn, _, hrn⟩ := of_bind_eq_ok h
    obtain ⟨⟨up, d⟩, hd, hok⟩ := of_bind_eq_ok hrn
    cases hok
    exact .inl ⟨_, rfl, Operand.readDisplacement_fits hd⟩

/-- **What operands can be read as.** All forms but two are an instruction outright. -/
theorem parseOperands_cases {mnemonic : Mnemonic} {operands : List Token}
    (h : parseOperands labels mnemonic operands = .ok s) :
    (∃ i, s = .instruction i ∧ i.Encodable)
      ∨ (∃ cond target name, s = .branchTo cond target ∧ mnemonic.shape = .branch cond
        ∧ operands = [name] ∧ labels.lookup name.text = .ok target)
      ∨ ∃ rd value register e, s = .loadConstant rd value ∧ mnemonic.shape = .transfer true
        ∧ operands = [register, e] ∧ e.kind = .expression
        ∧ Register.ofName? register.text = some rd
        ∧ Operand.readExpression labels e.text = .ok value := by
  unfold parseOperands at h
  split at h
  · -- three operands
    obtain ⟨rd, _, hrd⟩ := of_bind_eq_ok h
    obtain ⟨rn, _, hrn⟩ := of_bind_eq_ok hrd
    obtain ⟨operand, hop, hok⟩ := of_bind_eq_ok hrn
    cases hok
    exact .inl (process_encodable (Operand.readSecondOperand_fits hop))
  · -- two operands
    obtain ⟨r, _, hr⟩ := of_bind_eq_ok h
    obtain ⟨operand, hop, hok⟩ := of_bind_eq_ok hr
    have hfits := Operand.readSecondOperand_fits hop
    cases hok
    split
    · exact .inl (process_encodable hfits)
    · exact .inl (process_encodable hfits)
  · -- a multiplication
    obtain ⟨_, _, hleft⟩ := of_bind_eq_ok h
    obtain ⟨rd, _, hrd⟩ := of_bind_eq_ok hleft
    obtain ⟨rm, _, hrm⟩ := of_bind_eq_ok hrd
    obtain ⟨rs, _, hok⟩ := of_bind_eq_ok hrm
    cases hok
    exact .inl ⟨_, rfl, trivial⟩
  · -- one that accumulates
    obtain ⟨_, _, hleft⟩ := of_bind_eq_ok h
    obtain ⟨rd, _, hrd⟩ := of_bind_eq_ok hleft
    obtain ⟨rm, _, hrm⟩ := of_bind_eq_ok hrd
    obtain ⟨rs, _, hrs⟩ := of_bind_eq_ok hrm
    obtain ⟨rn, _, hok⟩ := of_bind_eq_ok hrs
    cases hok
    exact .inl ⟨_, rfl, trivial⟩
  · -- a transfer
    rename_i load register e rest hshape
    obtain ⟨rd, hrd, hleft⟩ := of_bind_eq_ok h
    rcases parseTransfer_cases hleft with hi | ⟨value, rfl, rfl, hkind, rfl, hvalue⟩
    · exact .inl hi
    · exact .inr (.inr ⟨rd, value, register, e, rfl, hshape, rfl, hkind,
        Operand.readRegister_eq_ok_iff.mp hrd, hvalue⟩)
  · -- a branch
    rename_i cond name rest hshape
    obtain ⟨_, hrest, hleft⟩ := of_bind_eq_ok h
    obtain ⟨target, htarget, hok⟩ := of_bind_eq_ok hleft
    cases hok
    obtain rfl := Operand.nothingLeft_eq_ok_iff.mp hrest
    exact .inr (.inl ⟨cond, target, name, rfl, hshape, rfl, htarget⟩)
  · -- a shift
    obtain ⟨_, _, hleft⟩ := of_bind_eq_ok h
    obtain ⟨r, _, hr⟩ := of_bind_eq_ok hleft
    obtain ⟨shift, hshift, hok⟩ := of_bind_eq_ok hr
    cases hok
    have hfits : (SecondOperand.register ⟨r, shift⟩).Fits := Operand.readShift_fits hshift
    exact .inl (process_encodable hfits)
  · -- the halt
    cases h
    exact .inl ⟨_, rfl, trivial⟩
  · cases h

theorem parseOperands_legal {mnemonic : Mnemonic} {operands : List Token}
    (h : parseOperands labels mnemonic operands = .ok s) : s.Legal labels := by
  rcases parseOperands_cases h with ⟨i, rfl, hi⟩ | ⟨cond, target, name, rfl, _, _, htarget⟩ |
    ⟨rd, value, register, e, rfl, _⟩
  · exact hi
  · exact ⟨name.text, htarget⟩
  · trivial

/-- **A line that can be read says something legal.** -/
theorem parse_legal {line : List Token} (h : parse labels line = .ok s) :
    s.Legal labels := by
  unfold parse at h
  split at h
  · cases h
    trivial
  · split at h
    · exact parseOperands_legal h
    · cases h

end Statement

end Armlet
