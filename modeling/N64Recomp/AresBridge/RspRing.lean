import N64Recomp.Data.Ring

/-!
# The RSP recorder

The recorder of the oracle bridge is called for every instruction that the RSP dispatches. It writes
an event into a sliding ring and into a boot snapshot, and at the first instruction of an audio task
the task into a ring of tasks and the output of the task before it into a ring of PCM events.

There is one recording thread, and readers run between two instructions. The emulator's RSP and its
RAM are what the recorder reads of them; arrays that are written in part keep what was in them.

## Main definitions

* `Rsp`, `TraceEvent`, `AudioTaskEvent`, `AudioPcmEvent`: what is read, and what is recorded
* `RingState`, `recordOneInstruction`, `recordAudioTaskStart`: the recorder
* `rspTraceGet`, `rspTraceBootGet`, `audioTaskGet`, `audioPcmGet`: the readers
* `Action`, `run`: instructions and toggles
-/

namespace N64Recomp.AresBridge

/-- What the recorder reads of the RSP. -/
structure Rsp where
  pc : BitVec 32
  gpr : Fin 32 → BitVec 32
  pendingPbusAddress : BitVec 32
  pendingDramAddress : BitVec 32
  pendingLength : BitVec 32
  busyRead : Bool
  busyWrite : Bool
  halted : Bool
  broken : Bool
  full : Bool
  semaphore : Bool
  interruptOnBreak : Bool
  singleStep : Bool
  signal : Fin 8 → Bool
  dmem : BitVec 12 → BitVec 8

/-- `ares_rsp_trace_event_t`. -/
structure TraceEvent where
  pc : BitVec 32
  gpr : Fin 32 → BitVec 32
  dmaMemAddr : BitVec 32
  dmaDramAddr : BitVec 32
  dmaRdLen : BitVec 32
  dmaWrLen : BitVec 32
  status : BitVec 32
  seq : BitVec 64

def kSlidingCapacity : Nat := 16384

def kSlidingMask : BitVec 64 := 0x3FFF

def kBootCapacity : BitVec 32 := 32768

def kAudioTaskCapacity : Nat := 8192

def kAudioTaskMask : BitVec 64 := 0x1FFF

/-- `ARES_AUDIO_TASK_DATA_CAP`. -/
def audioTaskDataCap : BitVec 32 := 4096

/-- `ARES_AUDIO_PCM_SLICES`. -/
def audioPcmSlices : Nat := 3

/-- `ARES_AUDIO_PCM_SLICE_BYTES`. -/
def audioPcmSliceBytes : Nat := 0x2E0

/-- `ares_audio_task_event_t`. Only the first `capturedLen` bytes of the data are of the task. -/
structure AudioTaskEvent where
  idx : BitVec 64
  instrSeq : BitVec 64
  taskType : BitVec 32
  taskFlags : BitVec 32
  ucode : BitVec 32
  ucodeData : BitVec 32
  dataPtr : BitVec 32
  dataSize : BitVec 32
  outputBuff : BitVec 32
  outputBuffSize : BitVec 32
  capturedLen : BitVec 32
  data : Nat → BitVec 8

/-- `ares_audio_pcm_event_t`. Only the first `nOut` slices of the data are of the task. -/
structure AudioPcmEvent where
  idx : BitVec 64
  nOut : BitVec 32
  addr : List (BitVec 32)
  pcm : Nat → Nat → BitVec 8

/-- `RingState`; the pending slices are the first `pending_n` entries of `pending_addr`. -/
structure RingState where
  sliding : Nat → TraceEvent
  boot : Nat → TraceEvent
  writeIdx : BitVec 64
  bootCount : BitVec 32
  enabled : Bool
  audioTasks : Nat → AudioTaskEvent
  audioTaskIdx : BitVec 64
  audioPcm : Nat → AudioPcmEvent
  audioPcmIdx : BitVec 64
  pendingIdx : BitVec 64
  pendingAddrs : List (BitVec 32)
  lastPc : BitVec 32

/-! ## Events -/

section Events

variable (rsp : Rsp)

/-- A flag at a position of a word. -/
def flagBit (b : Bool) (k : Nat) : BitVec 32 := (if b then 1 else 0) <<< k

/-- The event of an instruction. -/
def traceEvent (seq : BitVec 64) : TraceEvent where
  pc := rsp.pc &&& 0xFFF
  gpr := rsp.gpr
  dmaMemAddr := rsp.pendingPbusAddress
  dmaDramAddr := rsp.pendingDramAddress
  dmaRdLen := rsp.pendingLength
  dmaWrLen := flagBit rsp.busyWrite 0 ||| flagBit rsp.busyRead 1
  status := flagBit rsp.halted 0 ||| flagBit rsp.broken 1 ||| flagBit rsp.full 3 |||
    flagBit rsp.semaphore 4 ||| flagBit rsp.interruptOnBreak 5 ||| flagBit rsp.singleStep 6 |||
    (List.finRange 8).foldl (fun st i => st ||| flagBit (rsp.signal i) (8 + i)) 0
  seq

/-- `dmem_read_u32`. -/
def dmemReadU32 (off : BitVec 12) : BitVec 32 :=
  rsp.dmem off ++ rsp.dmem (off + 1) ++ rsp.dmem (off + 2) ++ rsp.dmem (off + 3)

/-- A field of the `OSTask` in the data memory. -/
def taskField (off : BitVec 12) : BitVec 32 := dmemReadU32 rsp (0xFC0 + off)

/-- `M_AUDTASK`. -/
def audioTaskType : BitVec 32 := 2

/-- The number of bytes of the command list that are captured: none when they leave the RAM. -/
def capturedBytes (ram : List (BitVec 8)) : BitVec 32 :=
  let want := if audioTaskDataCap < taskField rsp 0x34 then audioTaskDataCap else taskField rsp 0x34
  if ram.length < (taskField rsp 0x30 &&& 0x1FFFFFFF).toNat + want.toNat then 0 else want

/-- The event of an audio task, over the one that was in its slot. -/
def audioTaskEvent (ram : List (BitVec 8)) (idx instrSeq : BitVec 64) (old : AudioTaskEvent) :
    AudioTaskEvent where
  idx
  instrSeq
  taskType := taskField rsp 0x00
  taskFlags := taskField rsp 0x04
  ucode := taskField rsp 0x10
  ucodeData := taskField rsp 0x18
  outputBuff := taskField rsp 0x28
  outputBuffSize := taskField rsp 0x2C
  dataPtr := taskField rsp 0x30
  dataSize := taskField rsp 0x34
  capturedLen := capturedBytes rsp ram
  data i :=
    if i < (capturedBytes rsp ram).toNat then
      ram.getD ((taskField rsp 0x30 &&& 0x1FFFFFFF).toNat + i) 0
    else old.data i

end Events

/-! ## Slices -/

section Slices

/-- A command word of the captured data. -/
def commandWord (data : Nat → BitVec 8) (i : Nat) : BitVec 32 :=
  data i ++ data (i + 1) ++ data (i + 2) ++ data (i + 3)

/-- `aSaveBuffer` of a whole slice. -/
def isSliceSave (w0 : BitVec 32) : Bool :=
  w0 >>> 24 = 6 ∧ (w0 >>> 12) &&& 0xFFF = 0x2E0

/-- A command of the list: the address of a slice is kept once, while there is room. -/
def addSlice (data : Nat → BitVec 8) (pending : List (BitVec 32)) (i : Nat) :
    List (BitVec 32) :=
  let w1 := commandWord data (i + 4)
  if !isSliceSave (commandWord data i) then pending
  else if w1 ∈ pending then pending
  else if pending.length < audioPcmSlices then pending ++ [w1]
  else pending

/-- The inner loop of the sort: what is smaller is exchanged with the first one. -/
def exchangeMin : BitVec 32 → List (BitVec 32) → BitVec 32 × List (BitVec 32)
  | a, [] => (a, [])
  | a, b :: rest =>
    if b < a then ((exchangeMin b rest).1, a :: (exchangeMin b rest).2)
    else ((exchangeMin a rest).1, b :: (exchangeMin a rest).2)

/-- The outer loop, for the first positions. -/
def exchangeSort : Nat → List (BitVec 32) → List (BitVec 32)
  | 0, l => l
  | _ + 1, [] => []
  | n + 1, a :: rest => (exchangeMin a rest).1 :: exchangeSort n (exchangeMin a rest).2

/-- The slices of a command list, sorted. -/
def saveSlices (data : Nat → BitVec 8) (want : BitVec 32) : List (BitVec 32) :=
  let pending := (List.range (want.toNat / 8)).foldl (fun p k => addSlice data p (8 * k)) []
  exchangeSort pending.length pending

end Slices

/-! ## The recorder -/

section Recorder

variable (rsp : Rsp) (ram : List (BitVec 8))

/-- The slot of an index. -/
def slotOf (mask idx : BitVec 64) : Nat := (idx &&& mask).toNat

/-- The number of slices in front of the first one that leaves the RAM. -/
def slicesInRam (addrs : List (BitVec 32)) : Nat :=
  (addrs.takeWhile fun a =>
    (a &&& 0x1FFFFFFF).toNat + audioPcmSliceBytes ≤ ram.length).length

/-- The event of the pending slices, over the one that was in its slot. -/
def audioPcmEvent (idx : BitVec 64) (addrs : List (BitVec 32)) (old : AudioPcmEvent) :
    AudioPcmEvent where
  idx
  nOut := BitVec.ofNat 32 (slicesInRam ram addrs)
  addr := addrs ++ List.replicate (audioPcmSlices - addrs.length) 0
  pcm s i :=
    if s < slicesInRam ram addrs ∧ i < audioPcmSliceBytes then
      ram.getD ((addrs.getD s 0 &&& 0x1FFFFFFF).toNat + i) 0
    else old.pcm s i

/-- The flush of the previous task's output, when it has slices. -/
def flushPcm (g : RingState) : RingState :=
  if g.pendingAddrs.length > 0 then
    let slot := slotOf kAudioTaskMask g.audioPcmIdx
    { g with
      audioPcm := Function.update g.audioPcm slot
        (audioPcmEvent ram g.pendingIdx g.pendingAddrs (g.audioPcm slot))
      audioPcmIdx := g.audioPcmIdx + 1
      pendingAddrs := [] }
  else g

/-- The task event, and its slices for the next flush. -/
def recordTask (instrSeq : BitVec 64) (g : RingState) : RingState :=
  let slot := slotOf kAudioTaskMask g.audioTaskIdx
  let ev := audioTaskEvent rsp ram g.audioTaskIdx instrSeq (g.audioTasks slot)
  { g with
    audioTasks := Function.update g.audioTasks slot ev
    audioTaskIdx := g.audioTaskIdx + 1
    pendingIdx := g.audioTaskIdx
    pendingAddrs := saveSlices ev.data ev.capturedLen }

/-- `record_audio_task_start`. -/
def recordAudioTaskStart (instrSeq : BitVec 64) (g : RingState) : RingState :=
  if taskField rsp 0x00 ≠ audioTaskType then g
  else recordTask rsp ram instrSeq (flushPcm ram g)

/-- The event in both rings. -/
def recordEvent (g : RingState) : RingState :=
  let ev := traceEvent rsp g.writeIdx
  { g with
    writeIdx := g.writeIdx + 1
    sliding := Function.update g.sliding (slotOf kSlidingMask g.writeIdx) ev
    boot := if g.bootCount < kBootCapacity then Function.update g.boot g.bootCount.toNat ev
      else g.boot
    bootCount := if g.bootCount < kBootCapacity then g.bootCount + 1 else g.bootCount }

/-- `record_one_instruction`. -/
def recordOneInstruction (g : RingState) : RingState :=
  if !g.enabled then g
  else
    let pc := rsp.pc &&& 0xFFF
    let recorded := recordEvent rsp g
    let started :=
      if pc = 0 ∧ g.lastPc ≠ 0 then recordAudioTaskStart rsp ram g.writeIdx recorded else recorded
    { started with lastPc := pc }

end Recorder

/-! ## The readers -/

section Readers

/-- A reader: nothing in front of the window, and nothing from a slot with another index. -/
def ringGet {α : Type} (capacity : Nat) (mask total : BitVec 64) (slots : Nat → α)
    (idxOf : α → BitVec 64) (idx : BitVec 64) : Option α :=
  if total ≤ idx then none
  else if BitVec.ofNat 64 capacity < total - idx then none
  else
    let slot := slots (slotOf mask idx)
    if idxOf slot ≠ idx then none else some slot

variable (g : RingState)

/-- `ares_rsp_trace_get`; `none` is a return of `0`. -/
def rspTraceGet (idx : BitVec 64) : Option TraceEvent :=
  ringGet kSlidingCapacity kSlidingMask g.writeIdx g.sliding (·.seq) idx

/-- `ares_rsp_trace_boot_get`. -/
def rspTraceBootGet (pos : BitVec 32) : Option TraceEvent :=
  if g.bootCount ≤ pos then none else some (g.boot pos.toNat)

/-- `ares_audio_task_get`. -/
def audioTaskGet (idx : BitVec 64) : Option AudioTaskEvent :=
  ringGet kAudioTaskCapacity kAudioTaskMask g.audioTaskIdx g.audioTasks (·.idx) idx

/-- `ares_audio_pcm_get`. -/
def audioPcmGet (idx : BitVec 64) : Option AudioPcmEvent :=
  ringGet kAudioTaskCapacity kAudioTaskMask g.audioPcmIdx g.audioPcm (·.idx) idx

end Readers

/-! ## Runs -/

/-- An instruction that the RSP dispatches, with the contents of the RAM, or a toggle. -/
inductive Action
  | instruction (rsp : Rsp) (ram : List (BitVec 8))
  | setEnabled (enabled : Bool)

def step (g : RingState) : Action → RingState
  | .instruction rsp ram => recordOneInstruction rsp ram g
  | .setEnabled enabled => { g with enabled }

/-- The zeroed state at the start of the process. -/
def RingState.start : RingState where
  sliding _ := ⟨0, fun _ => 0, 0, 0, 0, 0, 0, 0⟩
  boot _ := ⟨0, fun _ => 0, 0, 0, 0, 0, 0, 0⟩
  writeIdx := 0
  bootCount := 0
  enabled := true
  audioTasks _ := ⟨0, 0, 0, 0, 0, 0, 0, 0, 0, 0, 0, fun _ => 0⟩
  audioTaskIdx := 0
  audioPcm _ := ⟨0, 0, [0, 0, 0], fun _ _ => 0⟩
  audioPcmIdx := 0
  pendingIdx := 0
  pendingAddrs := []
  lastPc := 0xFFFFFFFF

/-- The state behind a run. -/
def run (actions : List Action) : RingState := actions.foldl step RingState.start

end N64Recomp.AresBridge
