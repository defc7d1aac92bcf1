import Armlet.Proofs.Listing
import Armlet.Proofs.Run
import Armlet.Proofs.SourceMachine

/-!
# The machine runs the source

A program in memory does what its source says. This is where both halves of the
development meet: the words of a program are what its lines were encoded to, the
image puts them at four times their numbers, and the step rule executes what it
decodes there.

The simulation is in lockstep and on the whole state. The invariant is that the
memory holds the image, and it needs the run to keep out of its own way: each
program counter is the address of a line, and no store hits the image. Both are
asked of the source machine alone (`Source.Undisturbed`).
-/

namespace Armlet

variable {tokens : List Token} {p : Program}

/-- A program that a board can hold is far from filling the address space. -/
theorem Program.small_of_le_ramSize (h : ofTokens tokens = .ok p)
    (hfit : 4 * p.words.length ≤ Board.ramSize) : Small tokens := by
  rw [length_words h] at hfit
  unfold Board.ramSize at hfit
  unfold Small
  omega

namespace Source

theorem length_lines_ofTokens (tokens : List Token) :
    (ofTokens tokens).lines.length = Token.lineCount tokens :=
  Token.length_lines tokens

/-- What the texts of a line say is what the assembler has read there. -/
theorem statementAt?_lineAddress {k : Nat} {s : Statement} {i : Instruction} {pool' : LiteralPool}
    (hk : k < Token.lineCount tokens) (haddr : (Listing.lineAddress k).toNat = 4 * k)
    (hparse : Statement.parse (Layout.ofTokens tokens).labels (Program.line tokens k) = .ok s)
    (hencode : s.encode (Program.poolBefore tokens k) (Listing.lineAddress k) = (.ok i, pool')) :
    (ofTokens tokens).statementAt? (Listing.lineAddress k) = some s := by
  have hk' : k < (ofTokens tokens).lines.length := by
    rw [length_lines_ofTokens]
    exact hk
  have hline : Program.line tokens k = Token.withoutLabels (ofTokens tokens).lines[k] := by
    rw [Program.line]
    change Token.withoutLabels ((ofTokens tokens).lines[k]?.getD []) = _
    rw [List.getElem?_eq_getElem hk', Option.getD_some]
  have hinstruction : (ofTokens tokens).instruction? k = some i :=
    congrArg Except.toOption (Program.encodeLine_of_encode hparse hencode)
  rw [hline] at hparse
  rw [statementAt?, haddr, if_pos (Nat.mul_mod_right 4 k),
    Nat.mul_div_cancel_left k (by decide), List.getElem?_eq_getElem hk', Option.bind_some,
    hinstruction]
  exact Statement.said?_of_parse hparse (congrArg Prod.fst hencode)

/-- **One step.** At a line, on a board that holds the image, both machines do the same. -/
theorem step_eq (h : Program.ofTokens tokens = .ok p)
    (hfit : 4 * p.words.length ≤ Board.ramSize) {m : Machine Board}
    (hm : m.bus.Holds p.image) {k : Nat} (hk : k < Token.lineCount tokens)
    (hpc : m.cpu.pc = Listing.lineAddress k) :
    (m.step.answer, m.step.state) = (ofTokens tokens).step m := by
  have hsmall := Program.small_of_le_ramSize h hfit
  obtain ⟨s, i, hparse, _, hencode, hencodable, hword⟩ := Program.line_spec h hsmall hk
  obtain ⟨haddr, hbase, hle, hsize⟩ := Program.poolBefore_bounds hsmall hk
  have hstatement := statementAt?_lineAddress hk haddr hparse hencode
  rw [← hpc] at hencode haddr hle hstatement
  -- the word at the program counter is the line's, and it is read as it was meant
  have hread := hm.read_eq hword hfit haddr
  have hdecode := Instruction.decode?_encode_of_encodable hencodable
  rw [Machine.step_of_fetch hread hdecode, step_of_statement hstatement]
  refine Statement.resume_execute_of_encode hle hsize (congrArg Prod.fst hencode) ?_
  -- a slot of the pool so far is a slot of the last pool, and with that a word of the program
  intro j v addr hslot hj
  rw [hencode] at hslot
  have hpool := (Program.extends_poolBefore hk).getElem?_eq hslot
  rw [← Program.drop_words h, List.getElem?_drop] at hpool
  exact hm.read_eq hpool hfit (by omega)

/-- The last of the steps, set apart. -/
theorem after_succ' {β : Type} [Bus β] (src : Source) (m : Machine β) (n : Nat) :
    src.after m (n + 1) = (src.step (src.after m n)).2 := by
  induction n generalizing m with
  | zero => rfl
  | succ n ih => rw [after, ih, after]

/-- The same for any number of steps, and the image is still there. -/
theorem after_eq (h : Program.ofTokens tokens = .ok p)
    (hfit : 4 * p.words.length ≤ Board.ramSize) {m : Machine Board} (hm : m.bus.Holds p.image)
    (n : Nat)
    (hrun : ∀ j, j < n → (ofTokens tokens).Undisturbed p.image ((ofTokens tokens).after m j)) :
    m.after n = (ofTokens tokens).after m n
      ∧ ((ofTokens tokens).after m n).bus.Holds p.image := by
  induction n with
  | zero => exact ⟨rfl, hm⟩
  | succ n ih =>
    obtain ⟨heq, hholds⟩ := ih fun j hj => hrun j (Nat.lt_succ_of_lt hj)
    have hn := hrun n (Nat.lt_succ_self n)
    obtain ⟨k, hk, hpc⟩ := hn.at_line
    rw [length_lines_ofTokens] at hk
    rw [Machine.after_succ', after_succ', heq]
    refine ⟨?_, holds_step hholds hn⟩
    rw [← step_eq h hfit hholds hk hpc]

end Source

namespace Program

/--
**The machine runs the source.** Let a source text be assembled, and let its image
fit the memory of a board. On a board that holds the image, for as long as each
program counter is the address of a line and no store hits the image, every step
of the machine answers what the step of the source machine answers, and leaves
the same registers, flags, memory and pins.
-/
theorem simulates_source {text : String} {ram : Ram} (h : ofSource text = .ok p)
    (hload : (Ram.zeroed Board.ramSize).load p.image.toArray = .ok ram) {m : Machine Board}
    (hm : m.bus.Holds p.image) {n : Nat}
    (hrun : ∀ j, j < n →
      (Source.ofText text).Undisturbed p.image ((Source.ofText text).after m j)) :
    (∀ j, j < n → (m.after j).step.answer
        = ((Source.ofText text).step ((Source.ofText text).after m j)).1)
      ∧ (∀ j, j ≤ n → m.after j = (Source.ofText text).after m j) := by
  have hfit : 4 * p.words.length ≤ Board.ramSize := by
    have hlen := (Ram.holds_load hload).2.2
    rwa [image, Word.length_flatMap_bytes, Ram.size_zeroed] at hlen
  have hafter : ∀ j, j ≤ n → m.after j = (Source.ofText text).after m j
      ∧ ((Source.ofText text).after m j).bus.Holds p.image := by
    intro j hj
    exact Source.after_eq h hfit hm j fun i hi => hrun i (Nat.lt_of_lt_of_le hi hj)
  refine ⟨?_, fun j hj => (hafter j hj).1⟩
  intro j hj
  obtain ⟨heq, hholds⟩ := hafter j (Nat.le_of_lt hj)
  obtain ⟨k, hk, hpc⟩ := (hrun j hj).at_line
  rw [Source.ofText, Source.length_lines_ofTokens] at hk
  rw [heq]
  exact congrArg Prod.fst (Source.step_eq h hfit hholds hk hpc)

/-- A jump over an empty line, a constant from the pool, and a store behind the image. -/
def storing : String := "bge x\n\nx: ldr r1, =512\nstr r0, [r1]\n"

/-- The start of a program that finds a value in `r0`. -/
def storingStart (ram : Ram) : Machine Board :=
  ⟨(Processor.initial none).set .r0 0xCAFE, ram, .initial⟩

/-- What the three lines on its way say. -/
theorem statementAt?_storing :
    (Source.ofText storing).statementAt? 0 = some (.branchTo .ge 8)
      ∧ (Source.ofText storing).statementAt? 8 = some (.loadConstant .r1 512)
      ∧ (Source.ofText storing).statementAt? 12
        = some (.instruction (.transfer ⟨.al, false, true, true, .r1, .r0, .immediate 0⟩)) := by
  refine ⟨?_, ?_, ?_⟩ <;> decide +kernel

/-- The source machine on its way through the program. -/
theorem after_storing {ram : Ram} (h : ram.fault? 512 = none) :
    (Source.ofText storing).after (storingStart ram) 1
        = ⟨((Processor.initial none).set .r0 0xCAFE).set .pc 8, ram, .initial⟩
      ∧ (Source.ofText storing).after (storingStart ram) 2
        = ⟨(((Processor.initial none).set .r0 0xCAFE).set .r1 512).set .pc 12, ram, .initial⟩
      ∧ (Source.ofText storing).after (storingStart ram) 3
        = ⟨(((Processor.initial none).set .r0 0xCAFE).set .r1 512).set .pc 16,
          ram.putWord 512 0xCAFE, .initial⟩ := by
  obtain ⟨hbranch, hconstant, hstore⟩ := statementAt?_storing
  have h1 : (Source.ofText storing).after (storingStart ram) 1
      = ⟨((Processor.initial none).set .r0 0xCAFE).set .pc 8, ram, .initial⟩ := by
    rw [Source.after, Source.step_of_statement hbranch]
    rfl
  have h2 : (Source.ofText storing).after (storingStart ram) 2
      = ⟨(((Processor.initial none).set .r0 0xCAFE).set .r1 512).set .pc 12, ram, .initial⟩ := by
    rw [Source.after_succ', h1, Source.step_of_statement hconstant]
    rfl
  refine ⟨h1, h2, ?_⟩
  have hwrite : Board.write ⟨ram, .initial⟩ 512 0xCAFE
      = ⟨.ok (), ⟨ram.putWord 512 0xCAFE, .initial⟩, []⟩ := by
    rw [Board.write_of_memory _ _ rfl, ram.write_of_no_fault _ h]
    rfl
  rw [Source.after_succ', h2, Source.step_of_statement hstore, Statement.perform,
    Machine.execute_of_holds rfl, Machine.perform,
    Machine.perform_store rfl (congrArg Outcome.answer hwrite)]
  change Machine.mk _ (Board.write ⟨ram, .initial⟩ 512 0xCAFE).state = _
  rw [hwrite]
  rfl

theorem simulates_source_storing : ∃ (p : Program) (ram : Ram), ofSource storing = .ok p
      ∧ p.words = [0xAAFFFFFE, 0xE1A00000, 0xE59F1008, 0xE5810000, 0x200]
      ∧ (Ram.zeroed Board.ramSize).load p.image.toArray = .ok ram
      ∧ (storingStart ram).bus.Holds p.image
      ∧ (∀ j, j < 3 → (Source.ofText storing).Undisturbed p.image
        ((Source.ofText storing).after (storingStart ram) j))
      ∧ (∀ j, j < 3 → ((storingStart ram).after j).step.answer
        = ((Source.ofText storing).step ((Source.ofText storing).after (storingStart ram) j)).1)
      ∧ (∀ j, j ≤ 3 →
        (storingStart ram).after j = (Source.ofText storing).after (storingStart ram) j)
      ∧ ((storingStart ram).after 3).cpu
        = (((Processor.initial none).set .r0 0xCAFE).set .r1 512).set .pc 16
      ∧ ((storingStart ram).after 3).bus.ram.word 512 = 0xCAFE := by
  have hmap : (ofTokens (tokenize storing)).toOption.map words
      = some [0xAAFFFFFE, 0xE1A00000, 0xE59F1008, 0xE5810000, 0x200] := by decide +kernel
  obtain ⟨p, h, hwords⟩ := exists_of_map_words hmap
  have hlength : p.image.length = 20 := by
    rw [image, Word.length_flatMap_bytes, hwords]
    rfl
  obtain ⟨ram, hload⟩ : ∃ ram, (Ram.zeroed Board.ramSize).load p.image.toArray = .ok ram :=
    Ram.exists_load (by rw [hlength, Ram.size_zeroed]; decide)
  have hm : (storingStart ram).bus.Holds p.image := by
    obtain ⟨hholds, hsize, _⟩ := Ram.holds_load hload
    exact ⟨hsize.trans (Ram.size_zeroed _), hholds⟩
  have hram : ram.fault? 512 = none := by
    rw [Ram.fault?_eq_none_iff, show ram.size = Board.ramSize from hm.size_eq]
    decide
  obtain ⟨h1, h2, h3⟩ := after_storing hram
  obtain ⟨hbranch, hconstant, hstore⟩ := statementAt?_storing
  have hlines : (Source.ofText storing).lines.length = 4 := by decide +kernel
  have hrun : ∀ j, j < 3 → (Source.ofText storing).Undisturbed p.image
      ((Source.ofText storing).after (storingStart ram) j) := by
    intro j hj
    obtain rfl | rfl | rfl : j = 0 ∨ j = 1 ∨ j = 2 := by omega
    · refine ⟨⟨0, by rw [hlines]; decide, rfl⟩, ?_⟩
      intro t ht
      cases hbranch.symm.trans ht
    · rw [h1]
      refine ⟨⟨2, by rw [hlines]; decide, rfl⟩, ?_⟩
      intro t ht
      cases hconstant.symm.trans ht
    · rw [h2]
      refine ⟨⟨3, by rw [hlines]; decide, rfl⟩, ?_⟩
      intro t ht _
      cases hstore.symm.trans ht
      rw [hlength]
      change 20 ≤ 512
      decide
  obtain ⟨hanswers, hstates⟩ := simulates_source h hload hm hrun
  refine ⟨p, ram, h, hwords, hload, hm, hrun, hanswers, hstates, ?_, ?_⟩
  · rw [hstates 3 (Nat.le_refl 3), h3]
  · rw [hstates 3 (Nat.le_refl 3), h3]
    exact ram.word_putWord_self 0xCAFE (ram.fault?_eq_none_iff.mp hram).2

end Program

end Armlet
