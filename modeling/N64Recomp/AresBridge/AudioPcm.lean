import N64Recomp.AresBridge.RspTrace

/-!
# The PCM ring

The output of an audio task is recorded when the next audio task starts, and only when the task
has slices. A task without slices has no event, and the events behind it are not at the positions
of their tasks: the reader of the ring, which looks for an event at the position of its task,
refuses them.

## Main definitions

* `tasksOf`, `taskSlices`: the audio tasks of a history, and the slices that a task saves
* `flushed`: the tasks that have an event
* `PcmRight`: every event in the window is found, and is that of its task
* `SlicesFirst`: no task that is flushed is behind a task without slices

## Main results

* `PcmRecorded.instruction`, `pcmRecorded_run`: one instruction, and runs
* `pcmRight_iff`: the ring is right behind every prefix exactly when `SlicesFirst` holds
-/

namespace N64Recomp.AresBridge

/-! ## The tasks of a history -/

/-- The snapshots at which the audio tasks of a history start. -/
def tasksOf (history : List Snapshot) : List Snapshot :=
  (taskPositions history).filterMap (history[·]?)

/-- The command list of a task. -/
def Snapshot.commands (task : Snapshot) (i : Nat) : BitVec 8 :=
  task.2.getD ((taskField task.1 0x30 &&& 0x1FFFFFFF).toNat + i) 0

/-- The slices that a task saves. -/
def taskSlices (task : Snapshot) : List (BitVec 32) :=
  saveSlices task.commands (capturedBytes task.1 task.2)

/-- The slices of the last task. -/
def lastSlices (tasks : List Snapshot) : List (BitVec 32) :=
  (tasks.getLast?.map taskSlices).getD []

/-- Whether a task has slices. -/
def hasSlices (tasks : List Snapshot) (k : Nat) : Bool :=
  (tasks[k]?).any fun task => taskSlices task ≠ []

/-- The tasks that have an event: those with slices in front of another task. -/
def flushed (tasks : List Snapshot) : List Nat :=
  (List.range (tasks.length - 1)).filter (hasSlices tasks)

section Tasks

variable (history tasks : List Snapshot) (snapshot : Snapshot)

theorem mem_taskPositions {p : Nat} (h : p ∈ taskPositions history) : p < history.length :=
  List.mem_range.mp (List.mem_of_mem_filter h)

theorem tasksOf_append : tasksOf (history ++ [snapshot]) =
    tasksOf history ++ if startsTask history snapshot then [snapshot] else [] := by
  have hold : (taskPositions history).filterMap ((history ++ [snapshot])[·]?) =
      tasksOf history := by
    refine List.filterMap_congr fun p hp => ?_
    exact List.getElem?_append_left (mem_taskPositions history hp)
  rw [tasksOf, taskPositions_append, List.filterMap_append, hold]
  cases startsTask history snapshot with
  | false => rfl
  | true => simp

theorem length_tasksOf : (tasksOf history).length = (taskPositions history).length := by
  induction history using List.reverseRecOn with
  | nil => rfl
  | append_singleton rest snapshot ih =>
    rw [tasksOf_append, taskPositions_append, List.length_append, List.length_append, ih]
    cases startsTask rest snapshot with
    | false => rfl
    | true => rfl

theorem lastSlices_append : lastSlices (tasks ++ [snapshot]) = taskSlices snapshot := by
  rw [lastSlices, List.getLast?_append_of_ne_nil _ (by simp)]
  rfl

theorem hasSlices_append {k : Nat} (h : k < tasks.length) (more : List Snapshot) :
    hasSlices (tasks ++ more) k = hasSlices tasks k := by
  rw [hasSlices, List.getElem?_append_left h, hasSlices]

/-- The last task is flushed by the next one. -/
theorem flushed_append : flushed (tasks ++ [snapshot]) =
    flushed tasks ++ if lastSlices tasks ≠ [] then [tasks.length - 1] else [] := by
  induction tasks using List.reverseRecOn with
  | nil => rfl
  | append_singleton rest last _ =>
    have hlast : hasSlices ((rest ++ [last]) ++ [snapshot]) rest.length =
        decide (taskSlices last ≠ []) := by
      rw [hasSlices_append _ (by simp), hasSlices, List.getElem?_append_right (Nat.le_refl _)]
      simp
    have hold : (List.range rest.length).filter (hasSlices ((rest ++ [last]) ++ [snapshot])) =
        flushed (rest ++ [last]) := by
      rw [flushed, List.length_append, List.length_singleton, Nat.add_sub_cancel]
      refine List.filter_congr fun k hk => ?_
      have hlt := List.mem_range.mp hk
      exact hasSlices_append _ (by rw [List.length_append]; omega) _
    rw [flushed, List.length_append, List.length_append, List.length_singleton,
      List.length_singleton, Nat.add_sub_cancel, List.range_succ, List.filter_append, hold,
      lastSlices_append, Nat.add_sub_cancel]
    congr 1
    rw [List.filter_cons, hlast, List.filter_nil]
    simp only [decide_eq_true_eq]

end Tasks

/-! ## Positions in a filtered range -/

section Range

variable {P : Nat → Bool} {n i k : Nat}

/-- A number that passes a filter is at its own position exactly when everything below passes. -/
theorem getElem?_filter_range (h : ((List.range n).filter P)[i]? = some k) :
    i = k ↔ ∀ j < k, P j = true := by
  induction n with
  | zero => cases h
  | succ n ih =>
    rw [List.range_succ, List.filter_append] at h
    rcases Nat.lt_or_ge i ((List.range n).filter P).length with hi | hi
    · exact ih (by rwa [List.getElem?_append_left hi] at h)
    · rw [List.getElem?_append_right hi, List.filter_cons] at h
      split_ifs at h with hP
      · -- the last number of the range
        obtain ⟨hzero, hk⟩ := List.getElem?_eq_some_iff.mp h
        have hi' : i = ((List.range n).filter P).length := by
          simp only [List.filter_nil, List.length_singleton] at hzero
          omega
        have hk' : n = k := by
          simpa [hi'] using hk
        subst hk'
        rw [hi']
        constructor
        · intro hlength j hj
          have hall := List.length_filter_eq_length_iff.mp (hlength.trans List.length_range.symm)
          exact hall j (List.mem_range.mpr hj)
        · intro hall
          rw [List.filter_eq_self.mpr fun j hj => hall j (List.mem_range.mp hj),
            List.length_range]
      · cases h

end Range

/-! ## The state behind a history -/

/-- An event is that of a task and of the RAM at the start of the next one, but for the bytes behind
its slices. -/
def AudioPcmEvent.IsOf (ev : AudioPcmEvent) (idx : BitVec 64) (task next : Snapshot) : Prop :=
  ∃ old, ev = audioPcmEvent next.2 idx (taskSlices task) old

/-- The events of the flushed tasks. -/
structure ArePcmOf (tasks : List Snapshot) (events : List AudioPcmEvent) : Prop where
  length_eq : events.length = (flushed tasks).length
  isOf : ∀ (i : Nat) (ev : AudioPcmEvent), events[i]? = some ev → ∃ k task next,
    (flushed tasks)[i]? = some k ∧ tasks[k]? = some task ∧ tasks[k + 1]? = some next ∧
    ev.IsOf (BitVec.ofNat 64 k) task next

/-- The state of the PCM ring behind a history. -/
structure PcmRecorded (history : List Snapshot) (g : RingState) : Prop where
  pcmIdx : g.audioPcmIdx = BitVec.ofNat 64 (flushed (tasksOf history)).length
  pendingIdx : g.pendingIdx = BitVec.ofNat 64 ((tasksOf history).length - 1)
  pendingAddrs : g.pendingAddrs = lastSlices (tasksOf history)
  pcm : ∃ events, Ring.Holds kAudioTaskCapacity g.audioPcm events ∧
    ArePcmOf (tasksOf history) events

theorem ArePcmOf.nil : ArePcmOf [] [] where
  length_eq := rfl
  isOf _ _ h := by cases h

theorem pcmRecorded_start : PcmRecorded [] RingState.start where
  pcmIdx := rfl
  pendingIdx := rfl
  pendingAddrs := rfl
  pcm := ⟨[], Ring.Holds.nil, ArePcmOf.nil⟩

/-! ## One instruction -/

section Step

variable {tasks history : List Snapshot} {events : List AudioPcmEvent} {g : RingState}

/-- The slices of a command list depend on its bytes only. -/
theorem saveSlices_congr {data data' : Nat → BitVec 8} {want : BitVec 32}
    (h : ∀ i < want.toNat, data i = data' i) : saveSlices data want = saveSlices data' want := by
  have hcommand : ∀ k < want.toNat / 8, ∀ p, addSlice data p (8 * k) = addSlice data' p (8 * k) := by
    intro k hk p
    have hword : ∀ i, i + 4 ≤ want.toNat → commandWord data i = commandWord data' i := by
      intro i hi
      rw [commandWord, h i (by omega), h (i + 1) (by omega), h (i + 2) (by omega),
        h (i + 3) (by omega), commandWord]
    rw [addSlice, addSlice, hword _ (by omega), hword _ (by omega)]
  have hfold : (List.range (want.toNat / 8)).foldl (fun p k => addSlice data p (8 * k)) [] =
      (List.range (want.toNat / 8)).foldl (fun p k => addSlice data' p (8 * k)) [] :=
    List.foldl_ext _ _ _ fun p k hk => hcommand k (List.mem_range.mp hk) p
  rw [saveSlices, saveSlices, hfold]

/-- The slices that become pending are those of the task. -/
theorem saveSlices_audioTaskEvent (rsp : Rsp) (ram : List (BitVec 8)) (idx seq : BitVec 64)
    (old : AudioTaskEvent) : saveSlices (audioTaskEvent rsp ram idx seq old).data
      (audioTaskEvent rsp ram idx seq old).capturedLen = taskSlices (rsp, ram) := by
  refine saveSlices_congr fun i hi => ?_
  exact if_pos hi

/-- A task without slices adds no event. -/
theorem ArePcmOf.append_plain (h : ArePcmOf tasks events) (hlast : lastSlices tasks = [])
    (snapshot : Snapshot) : ArePcmOf (tasks ++ [snapshot]) events where
  length_eq := by rw [flushed_append, hlast, h.length_eq]; simp
  isOf i ev hev := by
    obtain ⟨k, task, next, hk, htask, hnext, hof⟩ := h.isOf i ev hev
    refine ⟨k, task, next, ?_, ?_, ?_, hof⟩
    · rw [flushed_append, List.getElem?_append_left (List.getElem?_eq_some_iff.mp hk).1, hk]
    · rw [List.getElem?_append_left (List.getElem?_eq_some_iff.mp htask).1, htask]
    · rw [List.getElem?_append_left (List.getElem?_eq_some_iff.mp hnext).1, hnext]

/-- A task with slices adds its event. -/
theorem ArePcmOf.append_task {last : Snapshot} (h : ArePcmOf (tasks ++ [last]) events)
    (hlast : taskSlices last ≠ []) {snapshot : Snapshot} {ev : AudioPcmEvent}
    (hof : ev.IsOf (BitVec.ofNat 64 tasks.length) last snapshot) :
    ArePcmOf (tasks ++ [last] ++ [snapshot]) (events ++ [ev]) where
  length_eq := by
    rw [flushed_append, lastSlices_append, if_pos hlast, List.length_append, List.length_append,
      h.length_eq]
    rfl
  isOf i ev' hev' := by
    rw [flushed_append, lastSlices_append, if_pos hlast]
    rcases Nat.lt_or_ge i events.length with hi | hi
    · rw [List.getElem?_append_left hi] at hev'
      obtain ⟨k, task, next, hk, htask, hnext, hof'⟩ := h.isOf i ev' hev'
      refine ⟨k, task, next, ?_, ?_, ?_, hof'⟩
      · rw [List.getElem?_append_left (List.getElem?_eq_some_iff.mp hk).1, hk]
      · rw [List.getElem?_append_left (List.getElem?_eq_some_iff.mp htask).1, htask]
      · rw [List.getElem?_append_left (List.getElem?_eq_some_iff.mp hnext).1, hnext]
    · have hlt := (List.getElem?_eq_some_iff.mp hev').1
      rw [List.length_append, List.length_singleton] at hlt
      obtain rfl : i = events.length := by omega
      rw [List.getElem?_append_right hi, Nat.sub_self] at hev'
      obtain rfl := Option.some.inj hev'
      refine ⟨tasks.length, last, snapshot, ?_, ?_, ?_, hof⟩
      · rw [h.length_eq, List.getElem?_append_right (Nat.le_refl _), Nat.sub_self]
        simp
      · simp
      · simp

/-- The flush in front of a new task. -/
theorem PcmRecorded.flush (h : PcmRecorded history g) (rsp : Rsp) (ram : List (BitVec 8)) :
    (flushPcm ram g).audioPcmIdx =
        BitVec.ofNat 64 (flushed (tasksOf history ++ [(rsp, ram)])).length ∧
      ∃ events, Ring.Holds kAudioTaskCapacity (flushPcm ram g).audioPcm events ∧
        ArePcmOf (tasksOf history ++ [(rsp, ram)]) events := by
  obtain ⟨events, hring, hpcm⟩ := h.pcm
  rw [flushed_append]
  by_cases hlast : lastSlices (tasksOf history) = []
  · have hflush : flushPcm ram g = g := by
      rw [flushPcm, h.pendingAddrs, hlast, if_neg (by simp)]
    rw [hflush]
    exact ⟨by rw [h.pcmIdx, hlast]; simp, events, hring, hpcm.append_plain hlast _⟩
  · rw [flushPcm, h.pendingAddrs, if_pos (List.length_pos_iff.mpr hlast), if_pos hlast]
    dsimp only
    rw [h.pcmIdx, h.pendingIdx, ofNat_succ, slotOf_audioTask_ofNat]
    refine ⟨by rw [List.length_append, List.length_singleton], ?_⟩
    rcases List.eq_nil_or_concat (tasksOf history) with hnil | ⟨tasks, last, htasks⟩
    · rw [hnil] at hlast
      exact absurd rfl hlast
    · rw [List.concat_eq_append] at htasks
      rw [htasks, lastSlices_append] at hlast ⊢
      rw [htasks] at hpcm
      have hput := hring.put (audioPcmEvent ram (BitVec.ofNat 64 tasks.length) (taskSlices last)
        (g.audioPcm (events.length % kAudioTaskCapacity)))
      refine ⟨_, ?_, hpcm.append_task hlast ⟨g.audioPcm (events.length % kAudioTaskCapacity), rfl⟩⟩
      rw [Ring.put, hpcm.length_eq] at hput
      rw [hpcm.length_eq, List.length_append, List.length_singleton, Nat.add_sub_cancel]
      exact hput

/-- **A recorded instruction keeps the PCM ring that of the history.** -/
theorem PcmRecorded.instruction (hrecorded : Recorded history g) (h : PcmRecorded history g)
    (henabled : g.enabled = true) (rsp : Rsp) (ram : List (BitVec 8)) :
    PcmRecorded (history ++ [(rsp, ram)]) (recordOneInstruction rsp ram g) := by
  have hevent : PcmRecorded history (recordEvent rsp g) := { h with }
  rw [recordOneInstruction_enabled hrecorded.lastPc henabled]
  cases hstart : startsTask history (rsp, ram) with
  | false =>
    have htasks : tasksOf (history ++ [(rsp, ram)]) = tasksOf history := by
      rw [tasksOf_append, hstart]
      exact List.append_nil _
    rw [if_neg (by decide)]
    exact {
      pcmIdx := by rw [htasks]; exact hevent.pcmIdx
      pendingIdx := by rw [htasks]; exact hevent.pendingIdx
      pendingAddrs := by rw [htasks]; exact hevent.pendingAddrs
      pcm := by rw [htasks]; exact hevent.pcm }
  | true =>
    have htasks : tasksOf (history ++ [(rsp, ram)]) = tasksOf history ++ [(rsp, ram)] := by
      rw [tasksOf_append, hstart, if_pos rfl]
    obtain ⟨hidx, hpcm⟩ := hevent.flush rsp ram
    have htaskIdx : (flushPcm ram (recordEvent rsp g)).audioTaskIdx = g.audioTaskIdx := by
      obtain ⟨pcm, idx, addrs, hflush⟩ := flushPcm_eq ram (recordEvent rsp g)
      rw [hflush]
      rfl
    rw [if_pos rfl]
    exact {
      pcmIdx := by rw [htasks]; exact hidx
      pendingIdx := by
        rw [htasks, List.length_append, List.length_singleton, Nat.add_sub_cancel,
          length_tasksOf, ← hrecorded.audioTaskIdx, ← htaskIdx]
        rfl
      pendingAddrs := by
        rw [htasks, lastSlices_append]
        exact saveSlices_audioTaskEvent rsp ram _ _ _
      pcm := by rw [htasks]; exact hpcm }

end Step

/-- **Behind every run the PCM ring is that of the run's history.** -/
theorem pcmRecorded_run (actions : List Action) :
    PcmRecorded (recorded true actions) (run actions) := by
  induction actions using List.reverseRecOn with
  | nil => exact pcmRecorded_start
  | append_singleton rest action ih =>
    rw [run_append, recorded_append]
    cases action with
    | setEnabled b =>
      rw [recorded, recorded, List.append_nil]
      exact { ih with }
    | instruction rsp ram =>
      cases henabled : enabledAfter true rest with
      | true => exact ih.instruction (recorded_run rest) ((enabled_run rest).trans henabled) rsp ram
      | false =>
        rw [recorded, recorded, List.append_nil, List.foldl_cons,
          step_disabled ((enabled_run rest).trans henabled)]
        exact ih

/-! ## The reader -/

/-- Every event in the window is found at its position, and is that of the task at this position. -/
def PcmRight (actions : List Action) : Prop :=
  ∀ i : BitVec 64, i < (run actions).audioPcmIdx →
    ¬ BitVec.ofNat 64 kAudioTaskCapacity < (run actions).audioPcmIdx - i →
    ∃ ev task next, audioPcmGet (run actions) i = some ev ∧ ev.idx = i ∧
      (tasksOf (recorded true actions))[i.toNat]? = some task ∧
      (tasksOf (recorded true actions))[i.toNat + 1]? = some next ∧ ev.IsOf i task next

/-- No task with slices that is in front of another task is behind a task without slices. -/
def SlicesFirst (tasks : List Snapshot) : Prop :=
  ∀ b, b + 1 < tasks.length → hasSlices tasks b = true → ∀ a < b, hasSlices tasks a = true

section Reader

variable {actions : List Action} {tasks : List Snapshot}

theorem mem_flushed {k : Nat} :
    k ∈ flushed tasks ↔ k + 1 < tasks.length ∧ hasSlices tasks k = true := by
  rw [flushed, List.mem_filter, List.mem_range]
  exact and_congr_left fun _ => by omega

/-- The tasks are in the positions of their events exactly when `SlicesFirst` holds; and then
already when the last one is. -/
theorem slicesFirst_iff : SlicesFirst tasks ↔ ∀ (i k : Nat), (flushed tasks)[i]? = some k → i = k := by
  constructor
  · intro h i k hk
    obtain ⟨hlt, hslices⟩ := mem_flushed.mp (List.mem_of_getElem? hk)
    exact (getElem?_filter_range hk).mpr (h k hlt hslices)
  · intro h b hb hslices
    obtain ⟨i, hi⟩ := List.getElem?_of_mem (mem_flushed.mpr ⟨hb, hslices⟩)
    exact (getElem?_filter_range hi).mp (h i b hi)

/-- When the last event is at the position of its task, all of them are. -/
theorem slicesFirst_of_last (h : ∀ k, (flushed tasks).getLast? = some k →
    (flushed tasks).length = k + 1) : SlicesFirst tasks := by
  intro b hb hslices
  have hmem := mem_flushed.mpr ⟨hb, hslices⟩
  obtain ⟨i, hi⟩ := List.getElem?_of_mem hmem
  obtain ⟨k, hk⟩ : ∃ k, (flushed tasks).getLast? = some k :=
    ⟨_, List.getLast?_eq_some_getLast (List.ne_nil_of_mem hmem)⟩
  have hlast : (flushed tasks)[k]? = some k := by
    have hlength := h k hk
    rw [List.getLast?_eq_getElem?, hlength, Nat.add_sub_cancel] at hk
    exact hk
  have hall := (getElem?_filter_range hlast).mp rfl
  -- the events are in the order of their tasks
  have hle : b ≤ k := by
    have hi' := (List.getElem?_eq_some_iff.mp hi).1
    rw [h k hk] at hi'
    rcases Nat.lt_or_ge i k with hik | hik
    · have hsorted : (flushed tasks).Pairwise (· < ·) := List.pairwise_lt_range.filter _
      obtain ⟨hib, rfl⟩ := List.getElem?_eq_some_iff.mp hi
      obtain ⟨hkb, hkk⟩ := List.getElem?_eq_some_iff.mp hlast
      exact Nat.le_of_lt (hkk ▸ List.pairwise_iff_getElem.mp hsorted i k hib hkb hik)
    · obtain rfl : i = k := by omega
      rw [hlast] at hi
      exact Nat.le_of_eq (Option.some.inj hi).symm
  exact fun a ha => hall a (by omega)

theorem length_flushed_lt (h : (recorded true actions).length < 2 ^ 64) :
    (flushed (tasksOf (recorded true actions))).length < 2 ^ 64 := by
  have hfilter := List.length_filter_le (hasSlices (tasksOf (recorded true actions)))
    (List.range ((tasksOf (recorded true actions)).length - 1))
  have htasks := length_taskPositions_le (recorded true actions)
  rw [List.length_range, length_tasksOf] at hfilter
  rw [flushed, length_tasksOf]
  omega

theorem pcmRight_of (hlength : (recorded true actions).length < 2 ^ 64)
    (h : SlicesFirst (tasksOf (recorded true actions))) : PcmRight actions := by
  have hpcm := pcmRecorded_run actions
  obtain ⟨events, hring, hevents⟩ := hpcm.pcm
  have hflushed : events.length < 2 ^ 64 := hevents.length_eq ▸ length_flushed_lt hlength
  have hidx : ∀ (i : Nat) (ev : AudioPcmEvent), events[i]? = some ev →
      ev.idx = BitVec.ofNat 64 i := by
    intro i ev hev
    obtain ⟨k, task, next, hk, -, -, old, rfl⟩ := hevents.isOf i ev hev
    rw [slicesFirst_iff.mp h i k hk]
    rfl
  intro i hi hwindow
  rw [hpcm.pcmIdx, ← hevents.length_eq] at hi hwindow
  obtain ⟨hlt, hle⟩ := (window_iff hflushed (by decide) i).mp ⟨BitVec.not_le.mpr hi, hwindow⟩
  obtain ⟨ev, hev⟩ : ∃ ev, events[i.toNat]? = some ev := ⟨_, List.getElem?_eq_getElem hlt⟩
  obtain ⟨k, task, next, hk, htask, hnext, hof⟩ := hevents.isOf _ ev hev
  rw [← slicesFirst_iff.mp h _ k hk] at htask hnext hof
  rw [BitVec.ofNat_toNat, BitVec.setWidth_eq] at hof
  refine ⟨ev, task, next, ?_, ?_, htask, hnext, hof⟩
  · rw [audioPcmGet, hpcm.pcmIdx, ← hevents.length_eq]
    exact (ringGet_eq_some_iff slotOf_audioTask (by decide) hflushed hring hidx i ev).mpr
      ⟨hev, hle⟩
  · rw [hidx _ ev hev, BitVec.ofNat_toNat, BitVec.setWidth_eq]

/-- What a reader returns is in the slot of its index. -/
theorem slot_of_ringGet {α : Type} {capacity : Nat} {mask total : BitVec 64} {slots : Nat → α}
    {idxOf : α → BitVec 64} {idx : BitVec 64} {x : α}
    (h : ringGet capacity mask total slots idxOf idx = some x) :
    slots (slotOf mask idx) = x ∧ idxOf x = idx := by
  unfold ringGet at h
  dsimp only at h
  split_ifs at h with htotal hevicted hslot
  obtain rfl := Option.some.inj h
  exact ⟨rfl, not_not.mp hslot⟩

theorem slicesFirst_of_pcmRight (hlength : (recorded true actions).length < 2 ^ 64)
    (h : PcmRight actions) : SlicesFirst (tasksOf (recorded true actions)) := by
  refine slicesFirst_of_last fun k hk => ?_
  have hpcm := pcmRecorded_run actions
  obtain ⟨events, hring, hevents⟩ := hpcm.pcm
  have hflushed := length_flushed_lt hlength
  have hne : 0 < events.length := by
    rw [hevents.length_eq, List.length_pos_iff]
    rintro hnil
    rw [hnil] at hk
    cases hk
  rw [← hevents.length_eq] at hflushed ⊢
  -- the last event is in the window, and is of the last flushed task
  obtain ⟨n, hn⟩ : ∃ n, events.length = n + 1 := ⟨events.length - 1, by omega⟩
  have hi : (BitVec.ofNat 64 n).toNat = n := by
    rw [BitVec.toNat_ofNat, Nat.mod_eq_of_lt (by omega)]
  have hcapacity : 0 < kAudioTaskCapacity := by decide
  have hwindow := (window_iff hflushed (by decide : kAudioTaskCapacity < 2 ^ 64)
    (BitVec.ofNat 64 n)).mpr (by rw [hi, hn]; exact ⟨by omega, by omega⟩)
  rw [hevents.length_eq, ← hpcm.pcmIdx] at hwindow
  obtain ⟨ev, _, _, hget, hidx, _⟩ := h _ (BitVec.not_le.mp hwindow.1) hwindow.2
  obtain ⟨hslot, -⟩ := slot_of_ringGet hget
  rw [slotOf_audioTask, hi] at hslot
  have hev : events[n]? = some ev := by
    rw [hring.get (by omega) (by omega), hslot]
  obtain ⟨k', task, next, hk', htask, -, old, rfl⟩ := hevents.isOf n ev hev
  have hkk : k' = k := by
    rw [List.getLast?_eq_getElem?, ← hevents.length_eq, hn, Nat.add_sub_cancel, hk'] at hk
    exact Option.some.inj hk
  have hlt : k' < 2 ^ 64 := by
    have htasks := (List.getElem?_eq_some_iff.mp htask).1
    have hle := length_taskPositions_le (recorded true actions)
    rw [length_tasksOf] at htasks
    omega
  -- the index of the event is the position of its task
  have hnat : k' = n := by
    have hbits : BitVec.ofNat 64 k' = BitVec.ofNat 64 n := hidx
    have hnats := congrArg BitVec.toNat hbits
    rwa [hi, BitVec.toNat_ofNat, Nat.mod_eq_of_lt hlt] at hnats
  omega

end Reader

/-! ## Runs -/

section Runs

variable {actions : List Action}

theorem recorded_take (n : Nat) : ∃ more,
    recorded true actions = recorded true (actions.take n) ++ more := by
  have hsplit := recorded_append (actions.take n) true (actions.drop n)
  rw [List.take_append_drop] at hsplit
  exact ⟨_, hsplit⟩

theorem tasksOf_append_history (history more : List Snapshot) :
    ∃ tasks, tasksOf (history ++ more) = tasksOf history ++ tasks := by
  induction more using List.reverseRecOn with
  | nil => exact ⟨[], by rw [List.append_nil, List.append_nil]⟩
  | append_singleton rest snapshot ih =>
    obtain ⟨tasks, htasks⟩ := ih
    rw [← List.append_assoc, tasksOf_append, htasks, List.append_assoc]
    exact ⟨_, rfl⟩

/-- The tasks of a prefix of a run are in the order of the run. -/
theorem slicesFirst_of_append {tasks more : List Snapshot} (h : SlicesFirst (tasks ++ more)) :
    SlicesFirst tasks := by
  intro b hb hslices a ha
  have hall := h b (by rw [List.length_append]; omega)
    (by rwa [hasSlices_append tasks (by omega)]) a ha
  rwa [hasSlices_append tasks (by omega)] at hall

/-- **The PCM ring is right behind every prefix of a run with fewer than `2 ^ 64` recorded
instructions exactly when no task that is flushed is behind a task without slices.** -/
theorem pcmRight_iff (hlength : (recorded true actions).length < 2 ^ 64) :
    (∀ n, PcmRight (actions.take n)) ↔ SlicesFirst (tasksOf (recorded true actions)) := by
  constructor
  · intro h
    have hwhole := h actions.length
    rw [List.take_length] at hwhole
    exact slicesFirst_of_pcmRight hlength hwhole
  · intro h n
    obtain ⟨more, hmore⟩ := @recorded_take actions n
    have hshort : (recorded true (actions.take n)).length < 2 ^ 64 := by
      rw [hmore, List.length_append] at hlength
      omega
    rw [hmore] at h
    obtain ⟨tasks, htasks⟩ := tasksOf_append_history (recorded true (actions.take n)) more
    rw [htasks] at h
    exact pcmRight_of hshort (slicesFirst_of_append h)

end Runs

/-- An RSP before the first instruction of an audio task whose command list has eight bytes. -/
def sliceRsp : Rsp :=
  { audioRsp 0 with dmem := fun off => if off = 0xFC3 then 2 else if off = 0xFF7 then 8 else 0 }

/-- A command that saves a slice. -/
def sliceRam : List (BitVec 8) := [0x06, 0x2E, 0x00, 0x00, 0x00, 0x00, 0x00, 0x00]

/-- Two audio tasks with a slice. -/
def slicedTasks : List Action :=
  [.instruction sliceRsp sliceRam, .instruction (audioRsp 4) sliceRam,
    .instruction sliceRsp sliceRam]

/-- The same tasks behind one without slices. -/
def unslicedFirst : List Action :=
  [.instruction (audioRsp 0) sliceRam, .instruction (audioRsp 4) sliceRam] ++ slicedTasks

/-- The only event of two tasks is found. -/
theorem slicedTasks_pcmRight : (tasksOf (recorded true slicedTasks)).length = 2 ∧
    ∀ n, PcmRight (slicedTasks.take n) := by
  have hlength : (tasksOf (recorded true slicedTasks)).length = 2 := by decide +kernel
  refine ⟨hlength, (pcmRight_iff (by decide +kernel)).mpr fun b hb _ a ha => ?_⟩
  omega

/-- The event of the second of three tasks is the only one, and is not found. -/
theorem unslicedFirst_not_pcmRight : ¬ ∀ n, PcmRight (unslicedFirst.take n) := by
  intro h
  obtain ⟨ev, -, -, hget, -⟩ := h 5 0 (by decide +kernel) (by decide +kernel)
  have hnone : (audioPcmGet (run (unslicedFirst.take 5)) 0).isNone = true := by decide +kernel
  rw [hget] at hnone
  cases hnone

end N64Recomp.AresBridge
