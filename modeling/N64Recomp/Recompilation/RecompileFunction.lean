import N64Recomp.Recompilation.ProcessInstruction

/-!
# The translation of a function

The collection of the branch labels, and the loop that writes the labels and the instructions.

## Main definitions

* `instructionLabels`, `branchLabels`, `localTailcallLabels`: the labels of a body
* `LoopState`, `emitInstruction`, `emitInstructions`: the emission loop
* `emitFallthrough`: the end of a function that runs into the next one
* `recompileFunctionImpl`, `recompileFunction`: the translation
* `cGenerator`: the calls on which the C generator throws
* `sampleRecompiler`: a context with one function
-/

namespace N64Recomp

/-! ### Fall-through at the end of a function -/

/-- `control_instruction_allows_fallthrough`. -/
def controlInstructionAllowsFallthrough (dec : Decoder) (instr : InstructionCpu) : Bool :=
  match instr.uniqueId dec with
  | .j | .b | .jr | .syscall | .break_ => false
  | .jalr => instr.rd = regRa
  | _ => true

/-- `function_end_allows_fallthrough`: a transfer before the last instruction decides. -/
def functionEndAllowsFallthrough (dec : Decoder) (instructions : List InstructionCpu) : Bool :=
  match instructions.reverse with
  | [] => false
  | [last] => controlInstructionAllowsFallthrough dec last
  | last :: previous :: _ =>
    if previous.isBranch dec || previous.isJump dec then
      controlInstructionAllowsFallthrough dec previous
    else controlInstructionAllowsFallthrough dec last

/-! ### Branch labels -/

section Labels

variable (dec : Decoder) (func : Function)

/-- The dispatch entries that have a label. -/
def dispatchLabels : List (BitVec 32) :=
  func.dispatchEntryVrams.filter fun v => func.vram < v ∧ v < func.vramEnd

/-- The interior entry, when there is one. -/
def entryLabel : Option (BitVec 32) :=
  if func.entryVram ≠ 0 ∧ func.entryVram ≠ func.vram then some func.entryVram else none

/-- Whether a conditional branch links. -/
def isLinkBranch (id : InstrId) : Bool := ((conditionalBranchOps id).map (·.link)).getD false

/-- The labels that an instruction contributes: its target, and the return address of a link. -/
def instructionLabels (instr : InstructionCpu) : List (BitVec 32) :=
  let id := instr.uniqueId dec
  let target := instr.getBranchVramGeneric dec
  let local_ := [target].filter func.contains
  let linkReturn := [instr.vram + 8].filter func.contains
  (if instr.isBranch dec || id = .j then [target] else []) ++
    if isLinkBranch id || id = .jal then local_ ++ linkReturn
    else if id = .jalr ∧ instr.rd = regRa then linkReturn
    else []

/-- The prefix of the names of static functions. -/
def isStaticName (name : Str) : Bool := (ascii "static_").isPrefixOf name

/-- The static functions of the section that are entries of the function, unless there are many. -/
def staticLocalTailcallLabels (statics : Statics) : List (BitVec 32) :=
  let i := func.sectionIndex.toNat
  if i < statics.length ∧ !isStaticName func.name ∧ func.byteSize ≤ 0x2000 then
    let labels := SortedSet.ofList
      ((statics.getD i []).filter fun v => func.vram < v ∧ v < func.vramEnd)
    if 256 < labels.elems.length then [] else labels.elems
  else []

/-- Every label that is collected, before those outside of the function are dropped. -/
def collectedLabels (instructions : List InstructionCpu) (jumpTables : List JumpTable)
    (statics : Statics) : SortedSet (BitVec 32) :=
  SortedSet.ofList (dispatchLabels func ++ (entryLabel func).toList ++
    instructions.flatMap (instructionLabels dec func) ++ jumpTables.flatMap (·.entries) ++
    staticLocalTailcallLabels func statics)

/-- The labels of the body, other than the one of its first instruction. -/
def branchLabels (instructions : List InstructionCpu) (jumpTables : List JumpTable)
    (statics : Statics) : SortedSet (BitVec 32) :=
  ((collectedLabels dec func instructions jumpTables statics).filter func.contains).erase func.vram

/-- The labels that a call's tail-call handling may continue at. -/
def localTailcallLabels (statics : Statics) : SortedSet (BitVec 32) :=
  (SortedSet.ofList (staticLocalTailcallLabels func statics)).filter func.contains

end Labels

/-! ### The loop over the instructions -/

/-- The cursors and counters of the loop. -/
structure LoopState where
  /-- The labels that are still to be written. -/
  cursor : List (BitVec 32)
  numLinkBranches : Nat
  numLikelyBranches : Nat
  needsLinkBranch : Bool
  inLikelyDelaySlot : Bool
  relocIndex : Nat
  deriving DecidableEq, Repr

def LoopState.start (labels : SortedSet (BitVec 32)) : LoopState where
  cursor := labels.elems
  numLinkBranches := 0
  numLikelyBranches := 0
  needsLinkBranch := false
  inLikelyDelaySlot := false
  relocIndex := 0

/-- Moves the cursor over the relocations forward, while there is a next one, past those before the
instruction. -/
def advanceRelocs (vram : BitVec 32) : List Reloc → Nat → Nat
  | reloc :: next :: rest, i =>
    if reloc.address < vram then advanceRelocs vram (next :: rest) (i + 1) else i
  | _, i => i

namespace Translation

variable (t : Translation)

/-- The next label, once its address is reached: at most one for an instruction. -/
def emitPendingLabel (vram : BitVec 32) : List (BitVec 32) → Emission (List (BitVec 32))
  | [] => return []
  | label :: labels =>
    if label ≤ vram then do
      t.call (.label (.at_ label))
      return labels
    else return label :: labels

/-- One turn of the loop, on the instructions from the current one on. -/
def emitInstruction (instrs : List InstructionCpu) (vram : BitVec 32) (index : Nat)
    (s : LoopState) : Emission LoopState := do
  -- the duplicate of a likely branch's delay slot is jumped over
  Emit.when s.inLikelyDelaySlot (t.call (.goto (.skip s.numLikelyBranches)))
  let cursor ← t.emitPendingLabel vram s.cursor
  let relocIndex := advanceRelocs vram (t.funcSection.relocs.drop s.relocIndex) s.relocIndex
  let (needsLinkBranch, isBranchLikely) ←
    t.processInstruction instrs index s.needsLinkBranch s.numLinkBranches relocIndex
  Emit.when s.inLikelyDelaySlot (t.call (.label (.skip s.numLikelyBranches)))
  return {
    cursor
    numLinkBranches := s.numLinkBranches + if s.needsLinkBranch then 1 else 0
    numLikelyBranches := s.numLikelyBranches + if s.inLikelyDelaySlot then 1 else 0
    needsLinkBranch
    inLikelyDelaySlot := isBranchLikely
    relocIndex }

/-- Pass two. -/
def emitInstructions : List InstructionCpu → (index : Nat) → LoopState → Emission Unit
  | [], _, _ => return ()
  | instr :: rest, index, s => do
    let s ← t.emitInstruction (instr :: rest) instr.vram index s
    emitInstructions rest (index + 1) s

/-- The tail call to the function that the end of this one runs into; a target without a body is
looked up at run time. -/
def emitFallthroughTo (i : Nat) : Emission Unit := do
  let vram := t.func.vramEnd
  raw (.hostReturn vram t.context.traceMode)
  raw (match t.context.functions[i]? with
    | some next => if next.words.isEmpty then .requestTailcallAddress vram
      else .requestTailcallFunction next.name vram
    | none => .requestTailcallAddress vram)
  t.emitTraceReturn
  raw .return_

def emitFallthrough : Emission Unit :=
  if functionEndAllowsFallthrough t.decoder t.instructions then
    match findCallableFunctionInSection t.context t.func.vramEnd t.func.sectionIndex.toNat with
    | none => pure ()
    | some i => Emit.when (i ≠ t.funcIndex) (t.emitFallthroughTo i)
  else pure ()

end Translation

namespace Recompiler

variable (r : Recompiler)

/-- A call of a generator's method. -/
def call (c : Call) : Emission Unit :=
  match r.generator c with
  | .ok () => Emit.write [.call c]
  | .error e => Emit.abort e

/-- The switch over the dispatch entries. -/
def emitDispatch (func : Function) : Emission Unit :=
  Emit.when (!func.dispatchEntryVrams.isEmpty) (Emit.write (.raw .dispatchOpen ::
    ((dispatchLabels func).map fun v => .raw (.dispatchCase v)) ++ [.raw .dispatchReject]))

/-- What comes before the first instruction. -/
def emitPrologue (func : Function) : Emission Unit := do
  emitDispatch func
  Emit.write ((entryLabel func).toList.map fun entry => .raw (.gotoEntry entry))
  Emit.write ((func.functionHooks (-1)).toList.map fun text => .raw (.hook text))
  r.call (.label (.at_ func.vram))

/-- The translation of the function's words, once its jump tables are known. -/
def translation (funcIndex : Nat) (func : Function) (tagReferenceRelocs : Bool)
    (jumpTables : List JumpTable) (statics : Statics) : Translation :=
  let instructions := decodeFrom func.vram func.words
  { r with
    func
    funcIndex
    tagReferenceRelocs
    jumpTables
    branchLabels := branchLabels r.decoder func instructions jumpTables statics
    localTailcallLabels := localTailcallLabels func statics
    instructions }

/-- The body of a function that is not stubbed. -/
def emitBody (funcIndex : Nat) (func : Function) (tagReferenceRelocs : Bool) : Emission Unit := do
  r.emitPrologue func
  match analyzeFunction r.decoder r.context func (decodeFrom func.vram func.words) with
  | .failed => Emit.refuse
  | .outOfBounds => Emit.abort .outOfBounds
  | .tables jumpTables =>
    let statics ← Emit.read
    let t := r.translation funcIndex func tagReferenceRelocs jumpTables statics
    t.emitInstructions t.instructions 0 (LoopState.start t.branchLabels)
    t.emitFallthrough

/-- `recompile_function_impl`. -/
def recompileFunctionImpl (funcIndex : Nat) (tagReferenceRelocs : Bool) : Emission Unit :=
  match r.context.functions[funcIndex]? with
  | none => Emit.abort .outOfBounds
  | some func => do
    r.call (.functionStart func.name)
    Emit.when r.context.traceMode (Emit.write [.raw .traceEntry])
    Emit.when (!func.stubbed) (r.emitBody funcIndex func tagReferenceRelocs)
    r.call .functionEnd

end Recompiler

/-- The calls that print operands or the name of a reference symbol, which can fail. -/
def Call.printsOperands : Call → Bool
  | .binaryOp .. | .unaryOp .. | .storeOp .. | .branchCondition ..
  | .functionCallReferenceSymbol .. => true
  | _ => false

/-- The calls on which the C generator throws: those with an operand that it cannot print. -/
def cGenerator (context : Context) : Call → Except Abort Unit
  | .binaryOp op ctx => ((CGenerator.processBinaryOp op ctx).map fun _ => ()).mapError .exception
  | .unaryOp op ctx => ((CGenerator.processUnaryOp op ctx).map fun _ => ()).mapError .exception
  | .storeOp op ctx => ((CGenerator.processStoreOp op ctx).map fun _ => ()).mapError .exception
  | .branchCondition op ctx =>
    ((CGenerator.branchCondition op ctx).map fun _ => ()).mapError .exception
  | .functionCallReferenceSymbol sectionIndex symbolIndex _ _ =>
    match context.getReferenceSymbol sectionIndex symbolIndex with
    | some _ => .ok ()
    | none => .error .outOfBounds
  | _ => .ok ()

theorem cGenerator_of_not_printsOperands (context : Context) {c : Call}
    (h : c.printsOperands = false) : cGenerator context c = .ok () := by
  cases c <;> first | rfl | cases h

/-! ### One function alone -/

/-- A function with the words, in the order of their bits. -/
def sampleFunction (words : List (BitVec 32)) : Function :=
  Function.mk' 0x80000400 0 (words.map byteswap) (ascii "func_80000400") 0 false false false 0

/-- The recompiler of a context with that function. -/
def sampleRecompiler (words : List (BitVec 32)) : Recompiler where
  decoder := .ofId sampleId
  generator := cGenerator { Context.empty with functions := [sampleFunction words] }
  context := { Context.empty with functions := [sampleFunction words] }
  discoverStaticCodeEntrypoint _ _ := false

end N64Recomp
