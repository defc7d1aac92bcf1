import Armlet.Proofs.LineTexts
import Armlet.Proofs.RoundTrip
import Armlet.Proofs.SourceMachine

/-!
# How far a branch reaches

A branch takes back the distance from its target to its own address. The field
for it counts words in two's complement, so of the distances in bytes it holds
those from `-0x2000000` to `0x2000000 - 4`. The assembler asks for less than
`0x2000000` in size, whatever the sign, and so it refuses one distance that the
field does hold: `-0x2000000`, that of the farthest target ahead.

Every other distance is treated as it should be. It is refused exactly if the
field does not hold it, and the report names it; and a branch that is not refused
has a word of its own, which leads to the target.
-/

namespace Armlet

namespace Statement

variable {labels : SymbolTable} {pool : LiteralPool} {addr target : Word} {cond : Condition}
  {head name : Token}

/-- A line with the mnemonic of a branch and the name of a label. -/
theorem assemble_branch (hmnemonic : Mnemonic.branchCondition? head.text = some cond)
    (hlabel : labels.find? name.text = some target) :
    assemble labels pool addr [head, name] = (encodeBranch addr cond target, pool) := by
  have hbranch : branchTo? labels [head, name] = some (cond, target) :=
    branchTo?_eq_some_iff.mpr ⟨head, name, rfl, hmnemonic, hlabel⟩
  simp only [assemble, parse_eq_branchTo_iff.mpr hbranch, encode]

/-- Only the size of the distance is looked at. -/
theorem exists_encodeBranch_iff : (∃ i, encodeBranch addr cond target = .ok i)
    ↔ -0x2000000 < (addr.toNat : Int) - target.toNat
      ∧ (addr.toNat : Int) - target.toNat < 0x2000000 := by
  unfold encodeBranch branchReach
  dsimp only
  split
  · simp only [reduceCtorEq, exists_false, false_iff]
    omega
  · simp only [Except.ok.injEq, exists_eq', true_iff]
    omega

theorem encodeBranch_eq_error {e : SourceError} (h : encodeBranch addr cond target = .error e) :
    e = .unencodable ((addr.toNat : Int) - target.toNat) := by
  unfold encodeBranch at h
  dsimp only at h
  split at h
  · exact (Except.error.inj h).symm
  · cases h

/-- A branch that is encoded is decoded to itself. -/
theorem decode?_of_encodeBranch {i : Instruction} (haddr : addr.toNat % 4 = 0)
    (htarget : target.toNat % 4 = 0) (h : encodeBranch addr cond target = .ok i) :
    Instruction.decode? i.encode = some i := by
  obtain ⟨offset, rfl, hoffset, hlo, hhi⟩ := encodeBranch_eq_ok h
  have hfits : Branch.Fits ⟨cond, offset⟩ := by
    simp only [Branch.Fits]
    omega
  exact Instruction.decode?_encode_of_encodable hfits

/-- It leads from its address to its target, and changes nothing else. -/
theorem execute_of_encodeBranch {β : Type} [Bus β] {m : Machine β} {i : Instruction}
    (h : encodeBranch addr cond target = .ok i) (hpc : m.cpu.pc = addr)
    (hcond : cond.holds m.cpu.flags = true) :
    m.execute i = ⟨.ok .jump, { m with cpu := m.cpu.set .pc target }, []⟩ := by
  obtain ⟨offset, rfl, hoffset, _, _⟩ := encodeBranch_eq_ok h
  have hback : m.cpu.pc - offset = target := Branch.sub_offset (hpc ▸ hoffset)
  rw [Machine.execute_of_holds hcond, Machine.perform, Branch.apply, hback]

/--
**A branch reaches every target that its word can express, but one.** Let a line
at `addr` branch to a label that stands for `target`, both of them aligned. It is
encoded iff the distance fits the word and is not the least that does. If it is
refused, the report names the distance. If it is not, its word decodes to an
instruction that leads from `addr` to `target`.
-/
theorem branch_reaches_target (hmnemonic : Mnemonic.branchCondition? head.text = some cond)
    (hlabel : labels.find? name.text = some target)
    (haddr : addr.toNat % 4 = 0) (htarget : target.toNat % 4 = 0) :
    ((∃ i, (assemble labels pool addr [head, name]).1 = .ok i)
        ↔ (-0x2000000 ≤ (addr.toNat : Int) - target.toNat
            ∧ (addr.toNat : Int) - target.toNat ≤ 0x2000000 - 4)
          ∧ (addr.toNat : Int) - target.toNat ≠ -0x2000000)
      ∧ (∀ e, (assemble labels pool addr [head, name]).1 = .error e →
        e = .unencodable ((addr.toNat : Int) - target.toNat))
      ∧ (∀ i, (assemble labels pool addr [head, name]).1 = .ok i →
        ∃ j, Instruction.decode? i.encode = some j
          ∧ ∀ (β : Type) [Bus β] (m : Machine β), m.cpu.pc = addr →
            cond.holds m.cpu.flags = true →
            (m.execute j).answer = .ok .jump
              ∧ (m.execute j).state = { m with cpu := m.cpu.set .pc target }) := by
  rw [assemble_branch hmnemonic hlabel]
  refine ⟨?_, fun e => encodeBranch_eq_error, ?_⟩
  · -- the distance is a multiple of four, so the two upper bounds come to the same
    rw [exists_encodeBranch_iff]
    omega
  · intro i h
    refine ⟨i, decode?_of_encodeBranch haddr htarget h, ?_⟩
    intro β _ m hpc hcond
    rw [execute_of_encodeBranch h hpc hcond]
    exact ⟨rfl, rfl⟩

/-- The table of a program with a label at the given address. -/
def landmark (addr : Word) : SymbolTable := SymbolTable.empty.insert "mark" addr

theorem find?_landmark (addr : Word) : (landmark addr).find? "mark" = some addr := by
  rw [landmark, SymbolTable.find?_insert, if_pos rfl]

/-- The farthest branch ahead that is not refused. -/
theorem branch_reaches_target_ahead :
    Mnemonic.branchCondition? "bne" = some .ne
      ∧ (landmark 0x2000008).find? "mark" = some 0x2000008
      ∧ (12 : Word).toNat % 4 = 0 ∧ (0x2000008 : Word).toNat % 4 = 0
      ∧ ∃ i j, (assemble (landmark 0x2000008) (.empty 0x200000C) 12
          [⟨.name, "bne"⟩, ⟨.name, "mark"⟩]).1 = .ok i
        ∧ Instruction.decode? i.encode = some j
        ∧ ∀ (β : Type) [Bus β] (m : Machine β), m.cpu.pc = 12 →
          Condition.ne.holds m.cpu.flags = true →
          (m.execute j).answer = .ok .jump
            ∧ (m.execute j).state = { m with cpu := m.cpu.set .pc 0x2000008 } := by
  have hmnemonic : Mnemonic.branchCondition? (Token.mk .name "bne").text = some .ne := rfl
  have hlabel : (landmark 0x2000008).find? (Token.mk .name "mark").text = some 0x2000008 :=
    find?_landmark 0x2000008
  have haddr : (12 : Word).toNat % 4 = 0 := rfl
  obtain ⟨hiff, _, hleads⟩ := @branch_reaches_target _ (.empty 0x200000C) _ _ _ _ _
    hmnemonic hlabel haddr rfl
  obtain ⟨i, hi⟩ := hiff.mpr (by decide)
  obtain ⟨j, hj, hexecute⟩ := hleads i hi
  exact ⟨rfl, hlabel, rfl, rfl, i, j, hi, hj, hexecute⟩

/-- The distance `-0x2000000` has a word, and this word leads from 0 to `0x2000000`; but a line
at 0 that branches there is refused. -/
theorem branch_refused_in_reach :
    (assemble (landmark 0x2000000) (.empty 0x2000004) 0
        [⟨.name, "b"⟩, ⟨.name, "mark"⟩]).1 = .error (.unencodable (-0x2000000))
      ∧ Instruction.decode? 0xEA800000 = some (.branch ⟨.al, 0xFE000000⟩)
      ∧ (0xFE000000 : Word).toInt = -0x2000000
      ∧ ∀ (β : Type) [Bus β] (m : Machine β), m.cpu.pc = 0 →
        (m.execute (.branch ⟨.al, 0xFE000000⟩)).answer = .ok .jump
          ∧ (m.execute (.branch ⟨.al, 0xFE000000⟩)).state.cpu.pc = 0x2000000 := by
  refine ⟨?_, by decide, by decide, ?_⟩
  · have hmnemonic : Mnemonic.branchCondition? (Token.mk .name "b").text = some .al := rfl
    rw [assemble_branch hmnemonic (find?_landmark 0x2000000)]
    rfl
  · intro β _ m hpc
    have hback : m.cpu.pc - 0xFE000000 = 0x2000000 := by
      rw [hpc]
      rfl
    rw [Machine.execute_of_holds rfl, Machine.perform, Branch.apply, hback]
    exact ⟨rfl, Processor.get_set_self _ .pc _⟩

end Statement

end Armlet
