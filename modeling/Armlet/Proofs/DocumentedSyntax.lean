import Mathlib.Data.List.Forall2
import Armlet.Proofs.ImmediateOperand
import Armlet.Proofs.Listing
import Armlet.Proofs.Operands

/-!
# The syntax of a line

Tokens come with marks: a number is a literal, a value to be loaded is an expression,
and everything else in a line is a name. `Shape.forms` writes down, place by place, what
may follow a mnemonic, and a line is `Documented` if each of its tokens bears the mark of
its place and has a text that can be read there.

The assembler is laxer, in two ways. It looks at a mark only where the mark decides what
the token is, and takes any other token for the name in its text; `Statement.asRead` drops
the marks that are not looked at. And it does not look at the operands of the halt. Nothing
else gets through: a line is accepted iff it is documented as it is read, or halts.
-/

namespace Armlet

/-! ## Places -/

/-- What may stand at one place of a line. -/
inductive Place where
  | register
  /-- The register that displaces a transfer. There may be a sign before it. -/
  | signedRegister
  /-- The register `r0` and no other. -/
  | zeroRegister
  | shiftName
  /-- The label that a branch leads to. -/
  | target
  /-- A number from 0 to 31. -/
  | amount
  /-- A number that a turned byte can express. -/
  | constant
  /-- A number of at most twelve bits and a sign. -/
  | displacement
  /-- A value to be loaded. -/
  | expression

namespace Place

/-- The mark of what stands there. -/
def kind : Place → TokenKind
  | register | signedRegister | zeroRegister | shiftName | target => .name
  | amount | constant | displacement => .literal
  | expression => .expression

/-- The texts that can be read there. -/
def Reads (labels : SymbolTable) : Place → String → Prop
  | register, text => ∃ r, Register.ofName? text = some r
  | signedRegister, text => ∃ r, Register.ofName? (Operand.signedName text).2 = some r
  | zeroRegister, text => text = "r0"
  | shiftName, text => ∃ kind, ShiftType.ofName? text = some kind
  | target, text => ∃ addr, labels.find? text = some addr
  | amount, text => ∃ n, Numeral.int64? text.toList = some n ∧ 0 ≤ n ∧ n ≤ 31
  | constant, text => ∃ n, Numeral.int64? text.toList = some n ∧ SecondOperand.Expressible n
  | displacement, text => ∃ n, Numeral.int64? text.toList = some n ∧ n.natAbs ≤ 0xFFF
  | expression, text => ∃ value, Operand.readExpression labels text = .ok value

/-- The token has the mark of the place and a text for it. -/
def Admits (labels : SymbolTable) (place : Place) (t : Token) : Prop :=
  t.kind = place.kind ∧ place.Reads labels t.text

end Place

/-! ## Forms -/

/-- The ways to write the amount of a shift. -/
def amountForms : List (List Place) := [[.amount], [.register]]

/-- The ways to go on after a register: nothing, or a shift. -/
def shiftForms : List (List Place) := [] :: amountForms.map (.shiftName :: ·)

/-- The ways to write a second operand. -/
def secondOperandForms : List (List Place) := [.constant] :: shiftForms.map (.register :: ·)

/-- The ways to go on after the base of a transfer. -/
def displacementForms : List (List Place) :=
  [] :: [.displacement] :: shiftForms.map (.signedRegister :: ·)

/-- The ways to write what a transfer goes to: an address, or the value that a load may have. -/
def addressForms (load : Bool) : List (List Place) :=
  (if load then [[.expression]] else []) ++ displacementForms.map (.register :: ·)

/-- The ways to write the operands of a mnemonic. -/
def Shape.forms : Shape → List (List Place)
  | threeOperand _ => (secondOperandForms.map (.register :: ·)).map (.register :: ·)
  | twoOperand _ => secondOperandForms.map (.register :: ·)
  | multiply false => [[.register, .register, .register]]
  | multiply true => [[.register, .register, .register, .register]]
  | transfer load => (addressForms load).map (.register :: ·)
  | branch _ => [[.target]]
  | shift _ => amountForms.map (.register :: ·)
  | halt => [[], [.zeroRegister, .zeroRegister, .zeroRegister]]

/-- The tokens are written in one of the forms. -/
def Fits (labels : SymbolTable) (forms : List (List Place)) (tokens : List Token) : Prop :=
  ∃ form ∈ forms, List.Forall₂ (Place.Admits labels) form tokens

/-- A line is written as its mnemonic asks for. -/
def Statement.Documented (labels : SymbolTable) : List Token → Prop
  | [] => True
  | head :: operands =>
    head.kind = .name
      ∧ ∃ m, Mnemonic.ofName? head.text = some m ∧ Fits labels m.shape.forms operands

section Fits

variable {labels : SymbolTable} {forms more : List (List Place)} {form : List Place}
  {place : Place} {t : Token} {tokens : List Token}

@[simp]
theorem not_fits_nil : ¬ Fits labels [] tokens := by simp [Fits]

@[simp]
theorem fits_cons : Fits labels (form :: forms) tokens
    ↔ List.Forall₂ (Place.Admits labels) form tokens ∨ Fits labels forms tokens := by
  simp [Fits]

theorem fits_append : Fits labels (forms ++ more) tokens
    ↔ Fits labels forms tokens ∨ Fits labels more tokens := by
  simp [Fits, or_and_right, exists_or]

/-- Forms that begin alike. -/
@[simp]
theorem fits_map_cons : Fits labels (forms.map (place :: ·)) (t :: tokens)
    ↔ place.Admits labels t ∧ Fits labels forms tokens := by
  constructor
  · rintro ⟨_, hmem, hall⟩
    obtain ⟨form, hform, rfl⟩ := List.mem_map.mp hmem
    obtain ⟨ht, htokens⟩ := List.forall₂_cons.mp hall
    exact ⟨ht, form, hform, htokens⟩
  · rintro ⟨ht, form, hform, htokens⟩
    exact ⟨_, List.mem_map_of_mem hform, .cons ht htokens⟩

/-- None of the forms is as short as this. -/
theorem not_fits_of_length {n : Nat} (hforms : ∀ form ∈ forms, n ≤ form.length)
    (h : tokens.length < n) : ¬ Fits labels forms tokens := by
  rintro ⟨form, hform, hall⟩
  have := hforms form hform
  have := hall.length_eq
  omega

/-- The operands that are counted for a mnemonic are those of its shortest form. -/
theorem Shape.operandCount_le {shape : Shape} :
    ∀ form ∈ shape.forms, shape.operandCount ≤ form.length := by
  cases shape with
  | multiply accumulate => cases accumulate <;> simp [forms, operandCount]
  | transfer load => cases load <;> simp [forms, operandCount, addressForms, displacementForms]
  | _ => simp [forms, operandCount, secondOperandForms, amountForms]

end Fits

/-! ## Marks that are looked at -/

namespace Token

/-- A token as it is read, if only the given mark is looked at. -/
def asRead (mark : Option TokenKind) (t : Token) : Token :=
  if mark = some t.kind then t else ⟨.name, t.text⟩

/-- Tokens as they are read; behind the last of the marks none is looked at. -/
def allAsRead : List (Option TokenKind) → List Token → List Token
  | _, [] => []
  | [], t :: tokens => t.asRead none :: allAsRead [] tokens
  | mark :: marks, t :: tokens => t.asRead mark :: allAsRead marks tokens

variable {mark : Option TokenKind} {kind : TokenKind} {t : Token}

@[simp]
theorem text_asRead : (t.asRead mark).text = t.text := by
  unfold asRead
  split <;> rfl

theorem asRead_of_kind (h : t.kind = kind) : t.asRead (some kind) = t := by
  rw [asRead, if_pos (by rw [h])]

theorem asRead_of_name (h : t.kind = .name) : t.asRead mark = t := by
  unfold asRead
  split
  · rfl
  · rw [← h]

theorem kind_asRead_of_ne (h : t.kind ≠ kind) : (t.asRead (some kind)).kind = .name := by
  rw [asRead, if_neg]
  intro heq
  exact h (Option.some.inj heq).symm

/-- A token that is read without its mark is a name. -/
theorem kind_asRead_none : (t.asRead none).kind = .name := by
  rw [asRead, if_neg nofun]

variable {marks : List (Option TokenKind)} {tokens : List Token}

theorem allAsRead_cons : allAsRead marks (t :: tokens)
    = t.asRead (marks.headD none) :: allAsRead marks.tail tokens := by
  cases marks with
  | nil => rfl
  | cons mark marks => rfl

@[simp]
theorem allAsRead_eq_nil_iff : allAsRead marks tokens = [] ↔ tokens = [] := by
  cases tokens with
  | nil => simp [allAsRead]
  | cons t tokens => simp [allAsRead_cons]

theorem length_allAsRead : (allAsRead marks tokens).length = tokens.length := by
  induction tokens generalizing marks with
  | nil => simp [allAsRead]
  | cons t tokens ih => simp [allAsRead_cons, ih]

end Token

/-- The marks that are looked at in a second operand, or in a transfer behind its base. -/
def operandMarks : List (Option TokenKind) := [some .literal, none, some .literal]

/-- The marks that are looked at behind a mnemonic. -/
def Shape.marks : Shape → List (Option TokenKind)
  | threeOperand _ => none :: none :: operandMarks
  | twoOperand _ => none :: operandMarks
  | transfer _ => none :: some .expression :: operandMarks
  | shift _ => [none, some .literal]
  | multiply _ | branch _ | halt => []

/-- A line as it is read. -/
def Statement.asRead : List Token → List Token
  | [] => []
  | head :: operands =>
    head.asRead none :: (Mnemonic.ofName? head.text).elim operands fun m =>
      Token.allAsRead m.shape.marks operands

/-! ## Marks that are not looked at make no difference -/

namespace Operand

open Token (allAsRead)

variable {mark : Option TokenKind} {marks : List (Option TokenKind)} {t first : Token}
  {tokens rest : List Token} {kind : ShiftType}

@[simp]
theorem readRegister_asRead : readRegister (t.asRead mark) = readRegister t := by
  simp [readRegister]

@[simp]
theorem nothingLeft_allAsRead : nothingLeft (allAsRead marks tokens) = nothingLeft tokens := by
  cases tokens with
  | nil => simp [allAsRead]
  | cons t tokens => simp [Token.allAsRead_cons, nothingLeft]

/-- A number is one of the two things that may stand at a place, and is known by its mark. -/
theorem asRead_literal_cases (t : Token) :
    t.kind = .literal ∧ t.asRead (some .literal) = t
      ∨ t.kind ≠ .literal ∧ (t.asRead (some .literal)).kind = .name := by
  by_cases h : t.kind = .literal
  · exact .inl ⟨h, Token.asRead_of_kind h⟩
  · exact .inr ⟨h, Token.kind_asRead_of_ne h⟩

@[simp]
theorem readShift_asRead :
    readShift kind (t.asRead (some .literal)) = readShift kind t := by
  obtain ⟨_, ht⟩ | ⟨ht, hname⟩ := asRead_literal_cases t
  · rw [ht]
  · rw [readShift, readShift, if_neg ht, if_neg (by simp [hname]), readRegister_asRead]

@[simp]
theorem readShifted_asRead :
    readShifted (first.asRead mark) (allAsRead [none, some .literal] rest)
      = readShifted first rest := by
  match rest with
  | [] => simp [readShifted, allAsRead]
  | [kindToken] => simp [readShifted, allAsRead]
  | kindToken :: amount :: surplus =>
    simp only [readShifted, allAsRead, readRegister_asRead, Token.text_asRead]
    cases ShiftType.ofName? kindToken.text with
    | none => rfl
    | some kind => simp

@[simp]
theorem readSecondOperand_asRead :
    readSecondOperand (first.asRead (some .literal)) (allAsRead [none, some .literal] rest)
      = readSecondOperand first rest := by
  obtain ⟨hkind, ht⟩ | ⟨ht, hname⟩ := asRead_literal_cases first
  · rw [ht, readSecondOperand, readSecondOperand, if_pos hkind, if_pos hkind,
      nothingLeft_allAsRead]
  · rw [readSecondOperand, readSecondOperand, if_neg ht, if_neg (by simp [hname]),
      readShifted_asRead]

@[simp]
theorem readDisplacement_asRead :
    readDisplacement (allAsRead operandMarks tokens) = readDisplacement tokens := by
  cases tokens with
  | nil => rfl
  | cons first rest =>
    -- only the text of a register goes on, and it goes on as a name
    have hsigned (name : String) : readShifted ⟨.name, name⟩ (allAsRead [none, some .literal] rest)
        = readShifted ⟨.name, name⟩ rest :=
      (readShifted_asRead : readShifted (Token.asRead none ⟨.name, name⟩) _ = _)
    rw [operandMarks, allAsRead]
    obtain ⟨hkind, ht⟩ | ⟨ht, hname⟩ := asRead_literal_cases first
    · rw [ht, readDisplacement, readDisplacement, if_pos hkind, if_pos hkind,
        nothingLeft_allAsRead]
    · rw [readDisplacement, readDisplacement, if_neg ht, if_neg (by simp [hname])]
      simp only [Token.text_asRead, hsigned]

end Operand

namespace Statement

variable {labels : SymbolTable} {pool : LiteralPool} {addr : Word} {line operands rest : List Token}
  {load : Bool} {rd : Register} {operand : Token} {m : Mnemonic}

@[simp]
theorem parseTransfer_asRead :
    parseTransfer labels load rd (operand.asRead (some .expression))
        (Token.allAsRead operandMarks rest)
      = parseTransfer labels load rd operand rest := by
  unfold parseTransfer
  by_cases h : operand.kind = .expression
  · simp [Token.asRead_of_kind h]
  · rw [if_neg h, if_neg (by simp [Token.kind_asRead_of_ne h])]
    simp

theorem parseOperands_asRead :
    parseOperands labels m (Token.allAsRead m.shape.marks operands)
      = parseOperands labels m operands := by
  obtain ⟨name, shape⟩ := m
  -- with too few operands there is none to be read
  cases shape with
  | threeOperand opcode =>
    rcases operands with _ | ⟨t0, _ | ⟨t1, _ | ⟨t2, rest⟩⟩⟩
    · rfl
    · rfl
    · rfl
    · simp [parseOperands, Token.allAsRead, Shape.marks, operandMarks]
  | twoOperand opcode =>
    rcases operands with _ | ⟨t0, _ | ⟨t1, rest⟩⟩
    · rfl
    · rfl
    · simp [parseOperands, Token.allAsRead, Shape.marks, operandMarks]
  | multiply accumulate =>
    cases accumulate with
    | false =>
      rcases operands with _ | ⟨t0, _ | ⟨t1, _ | ⟨t2, rest⟩⟩⟩
      · rfl
      · rfl
      · rfl
      · simp [parseOperands, Token.allAsRead, Shape.marks]
    | true =>
      rcases operands with _ | ⟨t0, _ | ⟨t1, _ | ⟨t2, _ | ⟨t3, rest⟩⟩⟩⟩
      · rfl
      · rfl
      · rfl
      · rfl
      · simp [parseOperands, Token.allAsRead, Shape.marks]
  | transfer load =>
    rcases operands with _ | ⟨t0, _ | ⟨t1, rest⟩⟩
    · rfl
    · rfl
    · simp [parseOperands, Token.allAsRead, Shape.marks]
  | branch cond =>
    rcases operands with _ | ⟨t0, rest⟩
    · rfl
    · simp [parseOperands, Token.allAsRead, Shape.marks]
  | shift kind =>
    rcases operands with _ | ⟨t0, _ | ⟨t1, rest⟩⟩
    · rfl
    · rfl
    · simp [parseOperands, Token.allAsRead, Shape.marks]
  | halt => rfl

/-- **A line means what it means as it is read.** -/
theorem parse_asRead : parse labels (asRead line) = parse labels line := by
  cases line with
  | nil => rfl
  | cons head operands =>
    cases hm : Mnemonic.ofName? head.text with
    | none => simp [asRead, parse, hm]
    | some m => simp [asRead, parse, hm, parseOperands_asRead]

end Statement

/-! ## What the readers accept -/

/-- A chain of readings succeeds iff its first link does, and the rest with what it gives. -/
theorem exists_bind_eq_ok_iff {ε α β : Type} {x : Except ε α} {f : α → Except ε β} :
    (∃ b, x >>= f = .ok b) ↔ ∃ a, x = .ok a ∧ ∃ b, f a = .ok b := by
  constructor
  · rintro ⟨b, h⟩
    obtain ⟨a, ha, hb⟩ := of_bind_eq_ok h
    exact ⟨a, ha, b, hb⟩
  · rintro ⟨a, rfl, b, hb⟩
    exact ⟨b, hb⟩

/-- A range check succeeds iff it finds nothing. -/
theorem exists_check_eq_ok_iff {ε α : Type} {c : Prop} [Decidable c] {e : ε} {a : α} :
    (∃ b, (if c then .error e else .ok a : Except ε α) = .ok b) ↔ ¬ c := by
  split
  · simp_all
  · simp_all

namespace Operand

open Token (allAsRead)

variable (labels : SymbolTable) {t first : Token} {tokens rest : List Token} {kind : ShiftType}

@[simp]
theorem exists_nothingLeft_iff : (∃ u, nothingLeft tokens = .ok u) ↔ tokens = [] := by
  simp only [nothingLeft_eq_ok_iff, exists_const]

theorem exists_readRegister_iff :
    (∃ r, readRegister t = .ok r) ↔ ∃ r, Register.ofName? t.text = some r := by
  simp only [readRegister_eq_ok_iff]

theorem readNumber_eq_ok_iff {n : Int} (h : t.kind = .literal) :
    readNumber t = .ok n ↔ Numeral.int64? t.text.toList = some n := by
  rw [readNumber, if_neg (not_not_intro h)]
  cases Numeral.int64? t.text.toList with
  | none => simp
  | some n => simp

/-- Where a number or a name may stand, the mark says which it is. -/
theorem admits_number_or_name_iff {number name : Place} (hnumber : number.kind = .literal)
    (hname : name.kind = .name) :
    number.Admits labels (t.asRead (some .literal)) ∨ name.Admits labels (t.asRead (some .literal))
      ↔ if t.kind = .literal then number.Reads labels t.text else name.Reads labels t.text := by
  obtain ⟨hkind, ht⟩ | ⟨hkind, ht⟩ := asRead_literal_cases t
  · rw [if_pos hkind, ht]
    simp [Place.Admits, hnumber, hname, hkind]
  · rw [if_neg hkind]
    simp [Place.Admits, hnumber, hname, ht]

theorem fits_amountForms_cons :
    Fits labels amountForms (t :: tokens) ↔ tokens = [] ∧ Fits labels amountForms [t] := by
  simp only [amountForms, fits_cons, not_fits_nil, List.forall₂_cons, List.forall₂_nil_left_iff]
  grind

theorem exists_readShift_iff :
    (∃ s, readShift kind t = .ok s) ↔ Fits labels amountForms [t.asRead (some .literal)] := by
  have hforms : Fits labels amountForms [t.asRead (some .literal)]
      ↔ Place.amount.Admits labels (t.asRead (some .literal))
        ∨ Place.register.Admits labels (t.asRead (some .literal)) := by
    simp [amountForms]
  rw [hforms, admits_number_or_name_iff labels rfl rfl]
  unfold readShift
  split
  · rename_i hkind
    simp only [exists_bind_eq_ok_iff, exists_check_eq_ok_iff, readNumber_eq_ok_iff hkind,
      Place.Reads, not_or, Int.not_lt]
  · simp [exists_bind_eq_ok_iff, exists_readRegister_iff, Place.Reads]

theorem exists_readShifted_iff :
    (∃ o, readShifted first rest = .ok o)
      ↔ (∃ r, Register.ofName? first.text = some r)
        ∧ Fits labels shiftForms (allAsRead [none, some .literal] rest) := by
  rw [readShifted, exists_bind_eq_ok_iff, ← exists_readRegister_iff, ← exists_and_right]
  refine exists_congr fun rm => and_congr_right fun _ => ?_
  match rest with
  | [] => simp [allAsRead, shiftForms]
  | [kindToken] =>
    -- the name of a shift without an amount
    have hforms : ¬ Fits labels shiftForms [kindToken.asRead none] := by
      simp [shiftForms, amountForms]
    dsimp only
    cases ShiftType.ofName? kindToken.text with
    | none => simpa [allAsRead] using hforms
    | some kind => simpa [allAsRead] using hforms
  | kindToken :: amount :: surplus =>
    have hforms : Fits labels shiftForms
        (kindToken.asRead none :: amount.asRead (some .literal) :: allAsRead [] surplus)
        ↔ (∃ kind, ShiftType.ofName? kindToken.text = some kind) ∧ surplus = []
          ∧ Fits labels amountForms [amount.asRead (some .literal)] := by
      rw [shiftForms, fits_cons, fits_map_cons, fits_amountForms_cons, Token.allAsRead_eq_nil_iff]
      simp [Place.Admits, Place.kind, Place.Reads, Token.kind_asRead_none]
    rw [allAsRead, allAsRead, hforms]
    dsimp only
    cases hkind : ShiftType.ofName? kindToken.text with
    | none => simp
    | some kind =>
      simp [exists_bind_eq_ok_iff, ← @exists_readShift_iff labels _ kind]

/-- A number that begins a second operand is all of it, and a turned byte expresses it. -/
theorem exists_readSecondOperand_number_iff (hkind : first.kind = .literal) :
    (∃ o, readSecondOperand first rest = .ok o)
      ↔ Place.constant.Reads labels first.text ∧ rest = [] := by
  obtain ⟨_, text⟩ := first
  obtain rfl : _ = TokenKind.literal := hkind
  cases rest with
  | cons t rest =>
    -- whatever the number is, something is left
    simp [readSecondOperand, exists_bind_eq_ok_iff, nothingLeft]
  | nil =>
    rw [and_iff_left rfl, Place.Reads]
    cases htext : Numeral.int64? text.toList with
    | none => simp [readSecondOperand, readNumber, htext, exists_bind_eq_ok_iff]
    | some n =>
      by_cases hn : SecondOperand.Expressible n
      · obtain ⟨_, hread⟩ := readSecondOperand_of_expressible htext hn
        exact iff_of_true ⟨_, hread⟩ ⟨n, rfl, hn⟩
      · rw [readSecondOperand_of_not_expressible htext hn]
        simp [hn]

theorem exists_readSecondOperand_iff :
    (∃ o, readSecondOperand first rest = .ok o)
      ↔ Fits labels secondOperandForms (allAsRead operandMarks (first :: rest)) := by
  rw [operandMarks, allAsRead, secondOperandForms, fits_cons, fits_map_cons]
  obtain ⟨hkind, ht⟩ | ⟨hkind, hname⟩ := asRead_literal_cases first
  · rw [exists_readSecondOperand_number_iff labels hkind, ht]
    simp [Place.Admits, Place.kind, hkind]
  · simp [readSecondOperand, hkind, exists_bind_eq_ok_iff, exists_readShifted_iff labels,
      Place.Admits, Place.kind, Place.Reads, hname]

theorem exists_readDisplacement_iff :
    (∃ d, readDisplacement tokens = .ok d)
      ↔ Fits labels displacementForms (allAsRead operandMarks tokens) := by
  rw [displacementForms, fits_cons, fits_cons]
  cases tokens with
  | nil => simp [readDisplacement, allAsRead]
  | cons first rest =>
    rw [operandMarks, allAsRead, fits_map_cons]
    obtain ⟨hkind, ht⟩ | ⟨hkind, hname⟩ := asRead_literal_cases first
    · rw [ht]
      simp [readDisplacement, hkind, exists_bind_eq_ok_iff, readNumber_eq_ok_iff hkind,
        exists_check_eq_ok_iff, Place.Admits, Place.kind, Place.Reads, and_comm]
    · simp [readDisplacement, hkind, exists_bind_eq_ok_iff, exists_readShifted_iff labels,
        Place.Admits, Place.kind, Place.Reads, hname]

end Operand

namespace Statement

variable {labels : SymbolTable} {pool : LiteralPool} {addr : Word} {line operands rest : List Token}
  {load : Bool} {rd : Register} {operand : Token} {m : Mnemonic} {i : Instruction}

theorem exists_parseTransfer_iff :
    (∃ s, parseTransfer labels load rd operand rest = .ok s)
      ↔ Fits labels (addressForms load)
        (Token.allAsRead (some .expression :: operandMarks) (operand :: rest)) := by
  rw [addressForms, fits_append, Token.allAsRead, fits_map_cons]
  by_cases hkind : operand.kind = .expression
  · rw [Token.asRead_of_kind hkind]
    cases load with
    | false => simp [parseTransfer, hkind, Place.Admits, Place.kind]
    | true =>
      simp [parseTransfer, hkind, exists_bind_eq_ok_iff, Place.Admits, Place.kind, Place.Reads,
        and_comm]
  · have hname := Token.kind_asRead_of_ne hkind
    have hvalue : ¬ Fits labels (if load then [[.expression]] else [])
        (operand.asRead (some .expression) :: Token.allAsRead operandMarks rest) := by
      cases load with
      | false => exact not_fits_nil
      | true => simp [Place.Admits, Place.kind, hname]
    simp [parseTransfer, hkind, exists_bind_eq_ok_iff, Operand.exists_readRegister_iff, hname,
      Operand.exists_readDisplacement_iff labels, Place.Admits, Place.kind, Place.Reads, hvalue]

theorem admits_register_iff {t : Token} : Place.register.Admits labels (t.asRead none)
    ↔ ∃ r, Operand.readRegister t = .ok r := by
  rw [Operand.exists_readRegister_iff]
  simp [Place.Admits, Place.kind, Place.Reads, Token.kind_asRead_none]

/-- Too few operands are refused, and there is no form for them. -/
theorem parseOperands_few_iff {e : SourceError}
    (hparse : parseOperands labels m operands = .error e)
    (hfew : operands.length < m.shape.operandCount) :
    (∃ s, parseOperands labels m operands = .ok s)
      ↔ Fits labels m.shape.forms (Token.allAsRead m.shape.marks operands) := by
  refine iff_of_false (by simp [hparse]) (not_fits_of_length Shape.operandCount_le ?_)
  rwa [Token.length_allAsRead]

/-- **The operands of a mnemonic are accepted iff they have one of its forms as they are read.** -/
theorem exists_parseOperands_iff (h : m.shape ≠ .halt) :
    (∃ s, parseOperands labels m operands = .ok s)
      ↔ Fits labels m.shape.forms (Token.allAsRead m.shape.marks operands) := by
  obtain ⟨name, shape⟩ := m
  -- the first cases are those of too few operands, which are refused and fit no form
  cases shape with
  | threeOperand opcode =>
    rcases operands with _ | ⟨t0, _ | ⟨t1, _ | ⟨t2, rest⟩⟩⟩
    iterate 3 exact parseOperands_few_iff rfl (by simp [Shape.operandCount])
    rw [Shape.forms, Shape.marks, Token.allAsRead, Token.allAsRead, fits_map_cons, fits_map_cons,
      ← Operand.exists_readSecondOperand_iff, admits_register_iff, admits_register_iff]
    simp [parseOperands, exists_bind_eq_ok_iff]
  | twoOperand opcode =>
    rcases operands with _ | ⟨t0, _ | ⟨t1, rest⟩⟩
    iterate 2 exact parseOperands_few_iff rfl (by simp [Shape.operandCount])
    rw [Shape.forms, Shape.marks, Token.allAsRead, fits_map_cons,
      ← Operand.exists_readSecondOperand_iff, admits_register_iff]
    simp [parseOperands, exists_bind_eq_ok_iff]
  | multiply accumulate =>
    cases accumulate with
    | false =>
      rcases operands with _ | ⟨t0, _ | ⟨t1, _ | ⟨t2, rest⟩⟩⟩
      iterate 3 exact parseOperands_few_iff rfl (by simp [Shape.operandCount])
      simp [parseOperands, exists_bind_eq_ok_iff, Shape.forms, Shape.marks, Token.allAsRead,
        admits_register_iff, and_comm, and_left_comm]
    | true =>
      rcases operands with _ | ⟨t0, _ | ⟨t1, _ | ⟨t2, _ | ⟨t3, rest⟩⟩⟩⟩
      iterate 4 exact parseOperands_few_iff rfl (by simp [Shape.operandCount])
      simp [parseOperands, exists_bind_eq_ok_iff, Shape.forms, Shape.marks, Token.allAsRead,
        admits_register_iff, and_comm, and_left_comm]
  | transfer load =>
    rcases operands with _ | ⟨t0, _ | ⟨t1, rest⟩⟩
    iterate 2 exact parseOperands_few_iff rfl (by simp [Shape.operandCount])
    rw [Shape.forms, Shape.marks, Token.allAsRead, fits_map_cons, admits_register_iff]
    simp [parseOperands, exists_bind_eq_ok_iff, exists_parseTransfer_iff]
  | branch cond =>
    rcases operands with _ | ⟨t0, rest⟩
    exact parseOperands_few_iff rfl (by simp [Shape.operandCount])
    simp [parseOperands, exists_bind_eq_ok_iff, Shape.forms, Shape.marks, Token.allAsRead,
      Place.Admits, Place.kind, Place.Reads, Token.kind_asRead_none,
      SymbolTable.lookup_eq_ok_iff, and_comm]
  | shift kind =>
    rcases operands with _ | ⟨t0, _ | ⟨t1, rest⟩⟩
    iterate 2 exact parseOperands_few_iff rfl (by simp [Shape.operandCount])
    rw [Shape.forms, Shape.marks, Token.allAsRead, Token.allAsRead, fits_map_cons,
      Operand.fits_amountForms_cons, ← @Operand.exists_readShift_iff labels _ kind,
      admits_register_iff, Token.allAsRead_eq_nil_iff, ← Operand.exists_nothingLeft_iff]
    simp [parseOperands, exists_bind_eq_ok_iff, and_left_comm]
  | halt => exact absurd rfl h

/-! ## The halt -/

/-- The line has the mnemonic of the halt. -/
def Halts (line : List Token) : Prop := line.head?.map Token.text = some "andeq"

theorem halts_cons_iff {head : Token} : Halts (head :: operands) ↔ head.text = "andeq" := by
  simp [Halts]

theorem ofName?_of_halts {head : Token} (h : Halts (head :: operands)) :
    Mnemonic.ofName? head.text = some ⟨"andeq", .halt⟩ := by
  rw [halts_cons_iff.mp h]
  rfl

/-- No other mnemonic has this shape. -/
theorem halts_iff_shape {head : Token} (hm : Mnemonic.ofName? head.text = some m) :
    Halts (head :: operands) ↔ m.shape = .halt := by
  obtain ⟨hmem, hname⟩ := Mnemonic.mem_of_ofName? hm
  have hall : ∀ m' ∈ Mnemonic.all, m'.shape = .halt ↔ m'.name = "andeq" := by decide
  rw [halts_cons_iff, hall m hmem, hname]

theorem parse_of_halts (h : Halts line) : parse labels line = .ok (.instruction .halt) := by
  cases line with
  | nil => cases h
  | cons head operands =>
    rw [parse, ofName?_of_halts h]
    rfl

/-- A chain of readings does not give what its last link never gives. -/
theorem bind_ne_ok {ε α β : Type} {x : Except ε α} {f : α → Except ε β} {b : β}
    (h : ∀ a, f a ≠ .ok b) : x >>= f ≠ .ok b := by
  intro hb
  obtain ⟨a, _, ha⟩ := of_bind_eq_ok hb
  exact h a ha

theorem parseTransfer_ne_halt :
    parseTransfer labels load rd operand rest ≠ .ok (.instruction .halt) := by
  unfold parseTransfer
  split
  · -- an expression, which only a load may have
    split
    · exact bind_ne_ok fun _ => bind_ne_ok fun value => by simp
    · simp
  · -- an address
    exact bind_ne_ok fun rn => bind_ne_ok fun ⟨up, displacement⟩ => by simp

/-- No other mnemonic makes a halt, whatever its operands are. -/
theorem parseOperands_ne_halt (h : m.shape ≠ .halt) :
    parseOperands labels m operands ≠ .ok (.instruction .halt) := by
  unfold parseOperands
  split
  · -- three operands
    exact bind_ne_ok fun rd => bind_ne_ok fun rn => bind_ne_ok fun operand => by simp [process]
  · -- two operands
    refine bind_ne_ok fun r => bind_ne_ok fun operand => ?_
    split <;> simp [process]
  · -- a multiplication
    exact bind_ne_ok fun _ => bind_ne_ok fun rd => bind_ne_ok fun rm => bind_ne_ok fun rs => by
      simp [multiply]
  · -- one that accumulates
    exact bind_ne_ok fun _ => bind_ne_ok fun rd => bind_ne_ok fun rm => bind_ne_ok fun rs =>
      bind_ne_ok fun rn => by simp [multiply]
  · -- a transfer
    exact bind_ne_ok fun rd => parseTransfer_ne_halt
  · -- a branch
    exact bind_ne_ok fun _ => bind_ne_ok fun target => by simp
  · -- a shift
    exact bind_ne_ok fun _ => bind_ne_ok fun r => bind_ne_ok fun shift => by simp [process]
  · -- the halt
    rename_i hshape
    exact absurd hshape h
  · simp

theorem eq_halt_of_encode {s : Statement} (h : (encode pool addr s).1 = .ok .halt) :
    s = .instruction .halt := by
  cases s with
  | blank => cases h
  | instruction i => rw [Except.ok.inj h]
  | branchTo cond target =>
    obtain ⟨_, hi, _⟩ := encodeBranch_eq_ok h
    cases hi
  | loadConstant rd value =>
    rw [encode] at h
    split at h
    · cases h
    · -- a load from the pool, if the distance allows for it
      unfold encodeLoad at h
      dsimp only at h
      split at h <;> cases h

theorem exists_parse_of_assemble (h : (assemble labels pool addr line).1 = .ok i) :
    ∃ s, parse labels line = .ok s ∧ (s.encode pool addr).1 = .ok i := by
  obtain ⟨s, hs, hencode⟩ := assemble_eq_ok (Prod.ext h rfl)
  exact ⟨s, hs, by rw [hencode]⟩

/-- **Just the lines with this mnemonic are encoded as the halt.** -/
theorem assemble_eq_halt_iff : (assemble labels pool addr line).1 = .ok .halt ↔ Halts line := by
  constructor
  · intro h
    obtain ⟨s, hs, hencode⟩ := exists_parse_of_assemble h
    rw [eq_halt_of_encode hencode] at hs
    cases line with
    | nil => cases hs
    | cons head operands =>
      cases hm : Mnemonic.ofName? head.text with
      | none => simp [parse, hm] at hs
      | some m =>
        simp only [parse, hm] at hs
        rw [halts_iff_shape hm]
        by_contra hne
        exact parseOperands_ne_halt hne hs
  · intro h
    rw [assemble, parse_of_halts h]
    rfl

/-! ## The line -/

/-- **A line is accepted iff it is documented as it is read, or halts.** -/
theorem exists_parse_iff :
    (∃ s, parse labels line = .ok s) ↔ Halts line ∨ Documented labels (asRead line) := by
  by_cases hhalts : Halts line
  · exact iff_of_true ⟨_, parse_of_halts hhalts⟩ (.inl hhalts)
  · rw [or_iff_right hhalts]
    cases line with
    | nil => simp [parse, asRead, Documented]
    | cons head operands =>
      cases hm : Mnemonic.ofName? head.text with
      | none => simp [parse, asRead, Documented, hm]
      | some m =>
        have hshape : m.shape ≠ .halt := mt (halts_iff_shape hm).mpr hhalts
        simp [parse, asRead, Documented, hm, exists_parseOperands_iff hshape,
          Token.kind_asRead_none]

/-- Where the place of a form is not that of a name, its mark is looked at. -/
def Heeds : List (Option TokenKind) → List Place → Prop
  | _, [] => True
  | marks, place :: form =>
    (place.kind = .name ∨ marks.headD none = some place.kind) ∧ Heeds marks.tail form

theorem heeds_marks (shape : Shape) : ∀ form ∈ shape.forms, Heeds shape.marks form := by
  cases shape with
  | multiply accumulate =>
    cases accumulate <;> simp [Shape.forms, Shape.marks, Heeds, Place.kind]
  | transfer load =>
    cases load <;> simp [Shape.forms, Shape.marks, Heeds, Place.kind, operandMarks, addressForms,
      displacementForms, shiftForms, amountForms]
  | _ =>
    simp [Shape.forms, Shape.marks, Heeds, Place.kind, operandMarks, secondOperandForms,
      shiftForms, amountForms]

/-- Tokens that have the marks of their places are read as they are. -/
theorem allAsRead_of_admits {marks : List (Option TokenKind)} {form : List Place}
    (hall : List.Forall₂ (Place.Admits labels) form operands) (h : Heeds marks form) :
    Token.allAsRead marks operands = operands := by
  induction hall generalizing marks with
  | nil => simp [Token.allAsRead]
  | cons ht _ ih =>
    obtain ⟨hname | hmark, hform⟩ := h
    · rw [Token.allAsRead_cons, Token.asRead_of_name (ht.1.trans hname), ih hform]
    · rw [Token.allAsRead_cons, hmark, Token.asRead_of_kind ht.1, ih hform]

/-- A documented line is read as it is. -/
theorem asRead_of_documented (h : Documented labels line) : asRead line = line := by
  cases line with
  | nil => rfl
  | cons head operands =>
    obtain ⟨hkind, m, hm, form, hform, hall⟩ := h
    rw [asRead, hm, Option.elim_some, Token.asRead_of_name hkind,
      allAsRead_of_admits hall (heeds_marks m.shape form hform)]

/-- The operands that are documented for the halt: none, or the zero registers of its text. -/
theorem fits_halt_iff : Fits labels Shape.halt.forms operands
    ↔ Token.allAsRead [] operands = operands
      ∧ operands.map Token.text ∈ [[], ["r0", "r0", "r0"]] := by
  constructor
  · rintro ⟨form, hform, hall⟩
    refine ⟨allAsRead_of_admits hall (heeds_marks .halt form hform), ?_⟩
    have hforms : form = [] ∨ form = [.zeroRegister, .zeroRegister, .zeroRegister] := by
      simpa [Shape.forms] using hform
    obtain rfl | rfl := hforms
    · rw [List.forall₂_nil_left_iff.mp hall]
      simp
    · obtain _ | ⟨h0, _ | ⟨h1, _ | ⟨h2, ⟨⟩⟩⟩⟩ := hall
      have htext (t : Token) (h : Place.zeroRegister.Admits labels t) : t.text = "r0" := h.2
      simp [htext _ h0, htext _ h1, htext _ h2]
  · rintro ⟨hread, htexts⟩
    match operands with
    | [] => exact ⟨[], by simp [Shape.forms], .nil⟩
    | [_] | [_, _] | _ :: _ :: _ :: _ :: _ => simp at htexts
    | [t0, t1, t2] =>
      have hzero (t : Token) (hname : t.asRead none = t) (htext : t.text = "r0") :
          Place.zeroRegister.Admits labels t := ⟨by rw [← hname]; rfl, htext⟩
      obtain ⟨hname0, hname1, hname2⟩ :
          t0.asRead none = t0 ∧ t1.asRead none = t1 ∧ t2.asRead none = t2 := by
        simpa [Token.allAsRead] using hread
      obtain ⟨htext0, htext1, htext2⟩ : t0.text = "r0" ∧ t1.text = "r0" ∧ t2.text = "r0" := by
        simpa using htexts
      refine ⟨[.zeroRegister, .zeroRegister, .zeroRegister], .tail _ (.head _), ?_⟩
      exact .cons (hzero t0 hname0 htext0)
        (.cons (hzero t1 hname1 htext1) (.cons (hzero t2 hname2 htext2) .nil))

/-- A line that halts is documented iff it drops no mark and has the operands documented for it. -/
theorem documented_iff_of_halts (h : Halts line) : Documented labels line
    ↔ asRead line = line ∧ line.tail.map Token.text ∈ [[], ["r0", "r0", "r0"]] := by
  cases line with
  | nil => cases h
  | cons head operands =>
    have hhead : head.asRead none = head ↔ head.kind = .name := by
      constructor
      · intro hread
        rw [← hread]
        rfl
      · exact Token.asRead_of_name
    simp only [Documented, asRead, ofName?_of_halts h, Option.some.injEq, exists_eq_left',
      Option.elim_some, List.cons.injEq, hhead, List.tail_cons, and_assoc]
    exact and_congr_right fun _ => fits_halt_iff

/--
**What is accepted is documented, but for marks that are not looked at and the operands of the
halt.** A line is the same to the assembler as the line that it is read as. It can be read iff it
has the mnemonic of the halt, whatever is behind it, or is documented as it is read; nothing else
is encoded, and just the lines with this mnemonic as the halt. So the documented lines are those
that can be read, bear no mark that is dropped, and have no operands or three zero registers if
they halt.
-/
theorem accepted_iff_documented_as_read (labels : SymbolTable) (pool : LiteralPool) (addr : Word)
    (line : List Token) :
    assemble labels pool addr (asRead line) = assemble labels pool addr line
      ∧ ((∃ s, parse labels line = .ok s) ↔ Halts line ∨ Documented labels (asRead line))
      ∧ (∀ i, (assemble labels pool addr line).1 = .ok i →
        (Halts line ∨ Documented labels (asRead line)) ∧ (i = .halt ↔ Halts line))
      ∧ (Documented labels line ↔ (∃ s, parse labels line = .ok s) ∧ asRead line = line
        ∧ (Halts line → line.tail.map Token.text ∈ [[], ["r0", "r0", "r0"]])) := by
  refine ⟨by rw [assemble, assemble, parse_asRead], exists_parse_iff, ?_, ?_⟩
  · intro i h
    obtain ⟨s, hs, _⟩ := exists_parse_of_assemble h
    refine ⟨exists_parse_iff.mp ⟨s, hs⟩, ?_⟩
    rw [← @assemble_eq_halt_iff labels pool addr, h, Except.ok.injEq]
  · rw [exists_parse_iff]
    by_cases hhalts : Halts line
    · rw [documented_iff_of_halts hhalts]
      simp only [hhalts, true_or, true_and, forall_const]
    · constructor
      · intro h
        have hline := asRead_of_documented h
        exact ⟨.inr (hline.symm ▸ h), hline, fun hhalts' => absurd hhalts' hhalts⟩
      · rintro ⟨hread, hline, _⟩
        rw [← hline]
        exact hread.resolve_left hhalts

/-- A base with the mark of a number, and a shift with that of a value to be loaded. -/
theorem accepted_iff_documented_as_read_marked :
    (assemble .empty (.empty 4) 0 [⟨.name, "ldr"⟩, ⟨.name, "r0"⟩, ⟨.literal, "r1"⟩, ⟨.name, "-r2"⟩,
        ⟨.expression, "lsl"⟩, ⟨.literal, "3"⟩]).1
        = .ok (.transfer ⟨.al, true, true, false, .r1, .r0, .register ⟨.r2, .amount .lsl 3⟩⟩)
      ∧ ¬ Halts [⟨.name, "ldr"⟩, ⟨.name, "r0"⟩, ⟨.literal, "r1"⟩, ⟨.name, "-r2"⟩,
        ⟨.expression, "lsl"⟩, ⟨.literal, "3"⟩]
      ∧ Documented .empty [⟨.name, "ldr"⟩, ⟨.name, "r0"⟩, ⟨.name, "r1"⟩, ⟨.name, "-r2"⟩,
        ⟨.name, "lsl"⟩, ⟨.literal, "3"⟩]
      ∧ ¬ Documented .empty [⟨.name, "ldr"⟩, ⟨.name, "r0"⟩, ⟨.literal, "r1"⟩, ⟨.name, "-r2"⟩,
        ⟨.expression, "lsl"⟩, ⟨.literal, "3"⟩] := by
  have haccepted : (assemble .empty (.empty 4) 0 [⟨.name, "ldr"⟩, ⟨.name, "r0"⟩, ⟨.literal, "r1"⟩,
      ⟨.name, "-r2"⟩, ⟨.expression, "lsl"⟩, ⟨.literal, "3"⟩]).1
      = .ok (.transfer ⟨.al, true, true, false, .r1, .r0, .register ⟨.r2, .amount .lsl 3⟩⟩) := rfl
  obtain ⟨_, _, hencoded, hdocumented⟩ := accepted_iff_documented_as_read .empty (.empty 4) 0
    [⟨.name, "ldr"⟩, ⟨.name, "r0"⟩, ⟨.literal, "r1"⟩, ⟨.name, "-r2"⟩, ⟨.expression, "lsl"⟩,
      ⟨.literal, "3"⟩]
  obtain ⟨hread, hhalt⟩ := hencoded _ haccepted
  have hnot := mt hhalt.mpr nofun
  refine ⟨haccepted, hnot, hread.resolve_left hnot, ?_⟩
  intro h
  exact absurd (hdocumented.mp h).2.1 (by decide)

/-- The mark of a number before a register, and operands behind the halt that are none of its own:
both lines are accepted, and neither is documented. -/
theorem undocumented_accepted :
    (assemble .empty (.empty 8) 0
        [⟨.name, "add"⟩, ⟨.name, "r0"⟩, ⟨.literal, "r1"⟩, ⟨.name, "r2"⟩]).1
        = .ok (.dataProcessing ⟨.al, .add, true, .r1, .r0, .register (.unshifted .r2)⟩)
      ∧ ¬ Documented .empty [⟨.name, "add"⟩, ⟨.name, "r0"⟩, ⟨.literal, "r1"⟩, ⟨.name, "r2"⟩]
      ∧ (assemble .empty (.empty 8) 4
        [⟨.name, "andeq"⟩, ⟨.name, "r1"⟩, ⟨.name, "r2"⟩, ⟨.name, "r3"⟩]).1 = .ok .halt
      ∧ ¬ Documented .empty [⟨.name, "andeq"⟩, ⟨.name, "r1"⟩, ⟨.name, "r2"⟩, ⟨.name, "r3"⟩] := by
  refine ⟨rfl, ?_, rfl, ?_⟩
  · intro h
    exact absurd (asRead_of_documented h) (by decide)
  · intro h
    have hhalts : Halts [⟨.name, "andeq"⟩, ⟨.name, "r1"⟩, ⟨.name, "r2"⟩, ⟨.name, "r3"⟩] := rfl
    exact absurd ((documented_iff_of_halts hhalts).mp h).2 (by decide)

end Statement

end Armlet
