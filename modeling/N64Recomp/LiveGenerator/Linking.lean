import N64Recomp.LiveGenerator.Operands
import N64Recomp.Recompilation.Items
import N64Recomp.Sljit.Assembly

/-!
# Linking a batch

The live generator assembles a batch of functions into one piece of code. Jumps are bound to labels
at three times: when the label is emitted, at the end of the function, and when the batch is
finished. What waits to be bound is kept in containers that all functions share.

An item of the code says which method emitted it and with what, which the generator never reads: it
is how the places of the code are told apart here. The code between jumps and labels is not
described.

## Main definitions

* `LiveItem`, `LiveState`: the items, and the generator's containers
* `LiveState.emitCall`, `LiveState.emitFunction`, `LiveState.finish`: the methods
* `Batch`: the functions that are emitted into one generator
* `BatchRight`: every jump goes where its method says
* `BatchCondition`: the names of the functions with switches, and branches that stay open

## Main results

* `batchRight_iff`: the batch is right exactly under the condition
-/

namespace N64Recomp

open Sljit

/-! ### Items -/

/-- What a method emits: labels, jumps, and the code that is neither. -/
inductive LiveItem
  /-- The entry label of a function. -/
  | entry (index : Nat) (name : Str)
  | straight (c : Call)
  | label (l : Label)
  | goto (target : Label)
  /-- The jump over the body of a branch. -/
  | branch
  /-- The label of `emit_branch_close`. -/
  | closing
  /-- The jump of a value that is not in the table. -/
  | bound (jtbl : JumpTable)
  /-- The jump through the host's table, which is known by the place of this jump. -/
  | tableJump (jtbl : JumpTable)
  /-- The call of a function of the batch. -/
  | call (index : Nat)
  /-- The label of a landing pad, its report, and its jump to the return. -/
  | pad
  | report (name : Str) (instrVram jtblVram : BitVec 32)
  | toReturn
  | returnLabel
  | return_
  deriving DecidableEq, Repr

def LiveItem.isEntry : LiveItem → Bool
  | .entry _ _ => true
  | _ => false

abbrev LiveCode := Assembly LiveItem

/-! ### The containers -/

/-- `SwitchErrorJump`. -/
structure SwitchErrorJump where
  instrVram : BitVec 32
  jtblVram : BitVec 32
  jump : Nat
  deriving DecidableEq, Repr

/-- The generator: its code, `LiveGeneratorContext` and the flag. A map from names to jumps is the
list of its pairs. -/
structure LiveState where
  code : LiveCode
  functionName : Str
  labels : List (Label × Nat)
  pendingJumps : List (Label × Nat)
  funcLabels : List (Option Nat)
  innerCalls : List (Nat × Nat)
  switchJumpLabels : List (List Label)
  unlinkedJumpTables : List (List (Option Nat) × Nat)
  pendingJumpTables : List Nat
  referenceSymbolJumps : List ((BitVec 16 × BitVec 32) × Nat)
  importJumpsByIndex : List (Nat × Nat)
  switchErrorJumps : List SwitchErrorJump
  curBranchJump : Option Nat
  errored : Bool

namespace LiveState

/-- The constructor of `LiveGenerator`. -/
def start (numFuncs : Nat) : LiveState where
  code := .empty
  functionName := []
  labels := []
  pendingJumps := []
  funcLabels := List.replicate numFuncs none
  innerCalls := []
  switchJumpLabels := []
  unlinkedJumpTables := []
  pendingJumpTables := []
  referenceSymbolJumps := []
  importJumpsByIndex := []
  switchErrorJumps := []
  curBranchJump := none
  errored := false

variable (s : LiveState)

/-! ### The methods -/

def emit (i : LiveItem) : LiveState := { s with code := s.code.emit i }

def error : LiveState := { s with errored := true }

/-- `emit_function_start`. -/
def functionStart (name : Str) (index : Nat) : LiveState :=
  { s with
    functionName := name
    funcLabels := s.funcLabels.set index (some s.code.here)
    code := (s.code.emit (.entry index name)).emit (.straight (.functionStart name)) }

/-- `emit_goto`. -/
def goto (target : Label) : LiveState :=
  match s.labels.lookup target with
  | some label => { s with code := (s.code.emit (.goto target)).bind s.code.here label }
  | none =>
    { s with
      code := s.code.emit (.goto target)
      pendingJumps := s.pendingJumps ++ [(target, s.code.here)] }

/-- `emit_label`. A label that the function has already is not replaced. -/
def label (l : Label) : LiveState :=
  let waiting := (s.pendingJumps.filter (·.1 = l)).map (·.2)
  { s with
    code := (s.code.emit (.label l)).bindAll waiting s.code.here
    pendingJumps := s.pendingJumps.filter (·.1 ≠ l)
    labels :=
      if (s.labels.lookup l).isSome then s.labels else s.labels ++ [(l, s.code.here)] }

/-- The branches that the generator does not emit. -/
def branchRefused (op : ConditionalBranchOp) (ctx : InstructionContext) : Bool :=
  decide (op.operands.operandOperation0 ≠ .none ∧ op.operands.operandOperation0 ≠ .toS64) ||
    decide (op.operands.operandOperation1 ≠ .none) ||
    (LiveGenerator.isFprU32l op.operands.operand0 || LiveGenerator.isFprU32l op.operands.operand1) ||
    decide (op.comparison ∉ [BinaryOpType.equal, .notEqual, .greaterEq, .greater, .lessEq, .less]) ||
    decide (ctx.relocType ≠ .none)

/-- `emit_branch_condition`. -/
def branchCondition (op : ConditionalBranchOp) (ctx : InstructionContext) : LiveState :=
  if s.curBranchJump.isSome || branchRefused op ctx then s.error
  else { s with code := s.code.emit .branch, curBranchJump := some s.code.here }

/-- `emit_branch_close`. -/
def branchClose : LiveState :=
  match s.curBranchJump with
  | none => s.error
  | some jump =>
    { s with code := (s.code.emit .closing).bind jump s.code.here, curBranchJump := none }

/-- `emit_switch`. -/
def switch (jtbl : JumpTable) (reg : Fin 32) : LiveState :=
  let code := s.code.emit (.straight (.switch jtbl reg))
  let errorJump := code.here
  let code := code.emit (.bound jtbl)
  { s with
    switchJumpLabels := s.switchJumpLabels ++ [jtbl.entries.map .at_]
    switchErrorJumps := s.switchErrorJumps ++ [⟨jtbl.jrVram, jtbl.vram, errorJump⟩]
    pendingJumpTables := s.pendingJumpTables ++ [code.here]
    code := code.emit (.tableJump jtbl) }

/-- `emit_function_call`. -/
def functionCall (index : Nat) : LiveState :=
  { s with
    innerCalls := s.innerCalls ++ [(index, s.code.here)]
    code := s.code.emit (.call index) }

/-- `emit_function_call_reference_symbol`. -/
def functionCallReferenceSymbol (c : Call) (sectionIndex : BitVec 16) (symbolIndex : Nat)
    (targetSectionOffset : BitVec 32) : LiveState :=
  if sectionIndex = sectionImport then
    { s with
      importJumpsByIndex := s.importJumpsByIndex ++ [(symbolIndex, s.code.here)]
      code := s.code.emit (.straight c) }
  else
    { s with
      referenceSymbolJumps :=
        s.referenceSymbolJumps ++ [((sectionIndex, targetSectionOffset), s.code.here)]
      code := s.code.emit (.straight c) }

/-- An operation, which is refused where its code is none. -/
def operation (c : Call) (code : Option (List LiveInstr)) : LiveState :=
  if code.isSome then s.emit (.straight c) else s.error

/-- A call of the generator, other than the first and the last of a function. -/
def emitCall (c : Call) : LiveState :=
  match c with
  | .goto target => s.goto target
  | .label l => s.label l
  | .branchCondition op ctx => s.branchCondition op ctx
  | .branchClose => s.branchClose
  | .switch jtbl reg => s.switch jtbl reg
  | .functionCall index _ => s.functionCall index
  | .functionCallReferenceSymbol sectionIndex symbolIndex targetSectionOffset _ =>
    s.functionCallReferenceSymbol c sectionIndex symbolIndex targetSectionOffset
  | .namedFunctionCall _ _ => s.error
  | .binaryOp op ctx => s.operation c (LiveGenerator.processBinaryOp op ctx)
  | .unaryOp op ctx => s.operation c (LiveGenerator.processUnaryOp op ctx)
  | .storeOp op ctx => s.operation c (LiveGenerator.processStoreOp op ctx)
  | _ => s.emit (.straight c)

/-- The labels of a table's cases, up to the first one that is missing. -/
def caseLabels (labels : List (Label × Nat)) (cases : List Label) : List (Option Nat) :=
  let found := (cases.map fun l => labels.lookup l).takeWhile Option.isSome
  found ++ List.replicate (cases.length - found.length) none

/-- `emit_function_end`. -/
def functionEnd : LiveState :=
  { s with
    unlinkedJumpTables := s.unlinkedJumpTables ++
      (s.switchJumpLabels.map (caseLabels s.labels)).zip s.pendingJumpTables
    switchJumpLabels := []
    pendingJumpTables := []
    labels := []
    errored := s.errored || !s.pendingJumps.isEmpty ||
      s.switchJumpLabels.any fun cases => cases.any fun l => (s.labels.lookup l).isNone }

end LiveState

/-! ### Batches -/

/-- The calls that a function's translation makes between its first and its last. -/
structure EmittedFunction where
  index : Nat
  name : Str
  calls : List Call
  inner : ∀ c ∈ calls, c ≠ .functionEnd ∧ ∀ name, c ≠ .functionStart name

/-- The functions that are emitted into one generator. It is made for the functions of a context,
which the indices are those of; the entries of a table are in the host's memory. -/
structure Batch where
  numFuncs : Nat
  functions : List EmittedFunction
  index_lt : ∀ f ∈ functions, f.index < numFuncs
  call_lt : ∀ f ∈ functions, ∀ i labels, Call.functionCall i labels ∈ f.calls → i < numFuncs
  table_lt : ∀ f ∈ functions, ∀ jtbl reg, Call.switch jtbl reg ∈ f.calls →
    jtbl.entries.length * 4 < 2 ^ 64

namespace LiveState

def emitCalls (s : LiveState) (calls : List Call) : LiveState := calls.foldl emitCall s

def emitFunction (s : LiveState) (f : EmittedFunction) : LiveState :=
  ((s.functionStart f.name f.index).emitCalls f.calls).functionEnd

def emitFunctions (s : LiveState) (functions : List EmittedFunction) : LiveState :=
  functions.foldl emitFunction s

end LiveState

/-- The generator after a batch. -/
def Batch.emitted (b : Batch) : LiveState := (LiveState.start b.numFuncs).emitFunctions b.functions

/-! ### The end of a batch -/

/-- `LiveGeneratorOutput`, with places of the code for its addresses. -/
structure LiveOutput where
  code : LiveCode
  functions : List (Option Nat)
  jumpTables : List (List (Option Nat) × Nat)
  referenceSymbolJumps : List ((BitVec 16 × BitVec 32) × Nat)
  importJumpsByIndex : List (Nat × Nat)

/-- Every call of a function of the batch is bound to the function's entry, which has to be there. -/
def resolveCalls (funcLabels : List (Option Nat)) : List (Nat × Nat) → LiveCode → Option LiveCode
  | [], code => some code
  | (index, jump) :: calls, code =>
    match funcLabels[index]? with
    | some (some label) => resolveCalls funcLabels calls (code.bind jump label)
    | _ => none

/-- One landing pad. -/
def emitPad (name : Str) (e : SwitchErrorJump) (code : LiveCode) : LiveCode :=
  (((code.bind e.jump code.here).emit .pad).emit (.report name e.instrVram e.jtblVram)).emit
    .toReturn

/-- The landing pads, and the places of their jumps to the return. -/
def emitPads (name : Str) : List SwitchErrorJump → LiveCode → List Nat × LiveCode
  | [], code => ([], code)
  | e :: errors, code =>
    let (jumps, code') := emitPads name errors (emitPad name e code)
    ((code.here + 2) :: jumps, code')

/-- The trampoline for values that are in no table. -/
def emitTrampoline (name : Str) (errors : List SwitchErrorJump) (code : LiveCode) : LiveCode :=
  if errors = [] then code
  else
    let (jumps, code) := emitPads name errors code
    ((code.emit .returnLabel).emit .return_).bindAll jumps code.here

/-- `LiveGenerator::finish`; the output is none when it is not good. -/
def LiveState.finish (s : LiveState) : Option LiveOutput :=
  if s.errored then none
  else
    (resolveCalls s.funcLabels s.innerCalls s.code).map fun code =>
      { code := emitTrampoline s.functionName s.switchErrorJumps code
        functions := s.funcLabels
        jumpTables := s.unlinkedJumpTables
        referenceSymbolJumps := s.referenceSymbolJumps
        importJumpsByIndex := s.importJumpsByIndex }

/-! ### What the code should do -/

/-- What `switch_error` is called with. -/
structure SwitchReport where
  name : Str
  instrVram : BitVec 32
  jtblVram : BitVec 32
  deriving DecidableEq, Repr

/-- Running from a place on, the code makes reports and then returns. -/
inductive Reports (code : LiveCode) : Nat → List SwitchReport → Prop
  | pad {p l} : code.items[p]? = some .pad → Reports code (p + 1) l → Reports code p l
  | report {p name instrVram jtblVram l} :
    code.items[p]? = some (.report name instrVram jtblVram) → Reports code (p + 1) l →
    Reports code p (⟨name, instrVram, jtblVram⟩ :: l)
  | toReturn {p q l} : code.items[p]? = some .toReturn → code.target p = some q →
    Reports code q l → Reports code p l
  | returnLabel {p l} : code.items[p]? = some .returnLabel → Reports code (p + 1) l →
    Reports code p l
  | return_ {p} : code.items[p]? = some .return_ → Reports code p []

/-- Where the jump of a switch goes for an offset in the table: to the place that the host's table
has for it, or to where the jump of the bounds check is bound. The comparison is unsigned. -/
def LiveOutput.switchGoesTo (out : LiveOutput) (errorJump : Nat) (jtbl : JumpTable)
    (offset : BitVec 64) (q : Nat) : Prop :=
  if BitVec.ofNat 64 (jtbl.entries.length * 4) ≤ offset then out.code.target errorJump = some q
  else ∃ table, (table, errorJump + 1) ∈ out.jumpTables ∧ table[offset.toNat / 4]? = some (some q)

/-- Two places of one function. -/
abbrev SameFunction (code : LiveCode) : Nat → Nat → Prop := SamePart LiveItem.isEntry code.items

/-- The function that a place is in. -/
def InFunction (code : LiveCode) (p : Nat) (name : Str) : Prop :=
  ∃ (e index : Nat), e ≤ p ∧ code.items[e]? = some (.entry index name) ∧ SameFunction code e p

/-- **A batch is linked right**: a `goto`, a branch that is closed and a case go to their label in
their own function; a call goes to the entry of its function; a value that is in no table is
reported with the names and addresses of its own switch, and the code returns; the functions of the
output are their entries. -/
structure LinkedRight (b : Batch) (out : LiveOutput) : Prop where
  gotos : ∀ (p : Nat) t, out.code.items[p]? = some (.goto t) → ∃ q, out.code.target p = some q ∧
    out.code.items[q]? = some (.label t) ∧ SameFunction out.code p q
  branches : ∀ (p q : Nat), out.code.items[p]? = some .branch → out.code.target p = some q →
    p < q ∧ out.code.items[q]? = some .closing ∧ SameFunction out.code p q ∧
      ∀ r : Nat, p < r → r < q → out.code.items[r]? ≠ some .branch ∧ out.code.items[r]? ≠ some .closing
  cases : ∀ (p : Nat) jtbl, out.code.items[p]? = some (.bound jtbl) →
    ∀ (i : Nat) entry (offset : BitVec 64), jtbl.entries[i]? = some entry → offset.toNat = 4 * i →
    ∃ q : Nat, (∀ q', out.switchGoesTo p jtbl offset q' ↔ q' = q) ∧
      out.code.items[q]? = some (.label (.at_ entry)) ∧ SameFunction out.code p q
  errors : ∀ (p : Nat) jtbl, out.code.items[p]? = some (.bound jtbl) →
    ∃ name, InFunction out.code p name ∧
      ∀ offset : BitVec 64, jtbl.entries.length * 4 ≤ offset.toNat →
      ∃ q, out.switchGoesTo p jtbl offset q ∧ Reports out.code q [⟨name, jtbl.jrVram, jtbl.vram⟩]
  calls : ∀ (p : Nat) i, out.code.items[p]? = some (.call i) →
    ∃ (q : Nat) (name : Str), out.code.target p = some q ∧ out.code.items[q]? = some (.entry i name)
  functions : ∀ (i q : Nat), out.functions[i]? = some (some q) →
    ∃ name, out.code.items[q]? = some (.entry i name)
  emitted : ∀ f ∈ b.functions, ∃ q : Nat, out.functions[f.index]? = some (some q)

/-- Everything that is referenced was emitted. -/
structure ReferencesEmitted (b : Batch) : Prop where
  gotos : ∀ f ∈ b.functions, ∀ t, Call.goto t ∈ f.calls → Call.label t ∈ f.calls
  cases : ∀ f ∈ b.functions, ∀ jtbl reg, Call.switch jtbl reg ∈ f.calls →
    ∀ entry ∈ jtbl.entries, Call.label (.at_ entry) ∈ f.calls
  calls : ∀ f ∈ b.functions, ∀ i labels, Call.functionCall i labels ∈ f.calls →
    ∃ g ∈ b.functions, g.index = i

/-- A batch that is good is linked right, and has all that it references. -/
def BatchRight (b : Batch) : Prop :=
  ∀ out, b.emitted.finish = some out → LinkedRight b out ∧ ReferencesEmitted b

/-! ### The condition -/

/-- Whether a branch is open after some calls. -/
def opens (isOpen : Bool) (calls : List Call) : Bool :=
  calls.foldl (fun isOpen c =>
    match c with
    | .branchCondition _ _ => true
    | .branchClose => false
    | _ => isOpen) isOpen

/-- No branch that a function leaves open is closed in a later function. -/
def ClosesOwn : Bool → List EmittedFunction → Prop
  | _, [] => True
  | isOpen, f :: functions =>
    (isOpen = true → Call.branchClose ∉ f.calls) ∧ ClosesOwn (opens isOpen f.calls) functions

/-- The functions with switches have the name of the last function of the batch, and no branch is
closed in another function. -/
structure BatchCondition (b : Batch) : Prop where
  names : ∀ f ∈ b.functions, (∃ jtbl reg, Call.switch jtbl reg ∈ f.calls) →
    ∀ g, b.functions.getLast? = some g → f.name = g.name
  branches : ClosesOwn false b.functions

end N64Recomp
