import N64Recomp.RSPRecomp.PermutationIndex
import N64Recomp.RSPRecomp.Permutations

/-!
# The overlay dispatcher

The generated dispatcher keeps the option loaded in each slot. When a permutation returns for an
overlay swap it finds the slot by the IMEM address of the transfer and the option by its offset
from the microcode, and calls the permutation at the index of the options.

A permutation is named by its options in decimal, one after the other without a separator. Two
permutations of one name are two definitions of one function, and the generated file is no
program.

## Main definitions

* `emitOverlayDispatcher`: the tables and the index of the generated dispatcher
* `Dispatcher.run`: the function called after a sequence of loads
* `emittedFunctions`, `callee`: the generated functions, and the one a name stands for
* `OverlaysRight`: what the permutations and the dispatcher are for

## Main results

* `overlaysRight_iff`
-/

namespace N64Recomp.RSPRecomp

open MixedRadix

def permutationSuffix (permutation : List (BitVec 32)) : Str :=
  permutation.flatMap fun opt => decimal opt.toNat

/-- The tables of the dispatcher. A `std::map` keeps the first of the pairs of one key. -/
structure Dispatcher where
  imemToSlot : List (BitVec 32 × Nat)
  offsetToOverlay : List (List (BitVec 32 × Nat))
  permutations : List Str
  index : CLang.Expr Nat Empty

def Config.permutationName (cfg : Config) (permutation : List (BitVec 32)) : Str :=
  cfg.outputFunctionName ++ permutationSuffix permutation

def Config.emitOverlayDispatcher (cfg : Config) (permutations : List Permutation) : Dispatcher where
  imemToSlot := cfg.overlaySlots.zipIdx.map fun s => (s.1.textAddress &&& rspMemMask, s.2)
  offsetToOverlay := cfg.overlaySlots.map fun slot =>
    slot.overlays.zipIdx.map fun o => (o.1.offset, o.2)
  permutations := permutations.map fun p => cfg.permutationName p.permutation
  index := permIndex cfg.optionCounts

/-- A round of the dispatcher's loop: the slots after the load, and the function it calls. -/
def Dispatcher.swap (d : Dispatcher) (ucodeAddr : BitVec 32) (slots : List (BitVec 32))
    (dmaMemAddress dmaDramAddress : BitVec 32) : Option (List (BitVec 32) × Str) :=
  (d.imemToSlot.lookup dmaMemAddress).bind fun slot =>
    (d.offsetToOverlay[slot]?).bind fun options =>
      (options.lookup (dmaDramAddress - ucodeAddr)).bind fun overlay =>
        let slots := slots.set slot (BitVec.ofNat 32 overlay)
        (d.index.eval (slotsEnv slots)).bind fun index =>
          (d.permutations[index.bits.toNat]?).map fun name => (slots, name)

/-- The functions of the generated file with the words they are compiled from. -/
def Config.emittedFunctions (cfg : Config) (permutations : List Permutation) :
    List (Str × List (BitVec 32)) :=
  (cfg.outputFunctionName ++ ascii "_initial", cfg.instrWords) ::
    permutations.map fun p => (cfg.permutationName p.permutation, p.instrWords)

/-- The function of a name, in a file that defines each name once. -/
def callee (functions : List (Str × List (BitVec 32))) (name : Str) : Option (List (BitVec 32)) :=
  if (functions.map Prod.fst).Nodup then functions.lookup name else none

/-- An overlay load: the slot and the overlay in it. -/
structure Load where
  slot : Nat
  overlay : Nat
  deriving DecidableEq, Repr

namespace Config

variable (cfg : Config)

/-- A load of an overlay of the configuration. -/
def IsLoad (load : Load) : Prop :=
  ∃ slot, cfg.overlaySlots[load.slot]? = some slot ∧ load.overlay < slot.overlays.length

instance (load : Load) : Decidable (cfg.IsLoad load) :=
  match h : cfg.overlaySlots[load.slot]? with
  | some slot =>
    decidable_of_iff (load.overlay < slot.overlays.length)
      ⟨fun hlt => ⟨slot, h, hlt⟩, fun ⟨_, hs, hlt⟩ => by rw [h] at hs; cases hs; exact hlt⟩
  | none => isFalse fun ⟨_, hs, _⟩ => by rw [h] at hs; cases hs

/-- The registers of the transfer that a load is: its address in IMEM and in DRAM. -/
def dmaOf (ucodeAddr : BitVec 32) (load : Load) : BitVec 32 × BitVec 32 :=
  match cfg.overlaySlots[load.slot]? with
  | some slot =>
    (slot.textAddress &&& rspMemMask,
      ucodeAddr + ((slot.overlays[load.overlay]?).map (·.offset)).getD 0)
  | none => (0, 0)

/-- The dispatcher's loop over a sequence of loads: the slots and the last function called. -/
def runLoads (d : Dispatcher) (ucodeAddr : BitVec 32) (loads : List Load) :
    Option (List (BitVec 32) × Str) :=
  loads.foldlM
    (fun state load =>
      let dma := cfg.dmaOf ucodeAddr load
      d.swap ucodeAddr state.1 dma.1 dma.2)
    (cfg.overlaySlots.map fun _ => 0#32, cfg.outputFunctionName ++ ascii "_initial")

/-- The options in the slots after a sequence of loads. -/
def loaded (loads : List Load) : List Nat :=
  loads.foldl (fun options load => options.set load.slot load.overlay) (zeros cfg.optionCounts)

/-- The position of a vector of options: each option times the numbers of options of the slots
after its own. -/
def position (options : List Nat) : Nat :=
  ∑ i ∈ Finset.range cfg.overlaySlots.length,
    options.getD i 0 * (cfg.optionCounts.drop (i + 1)).prod

/-- What the permutations and the dispatcher are for. -/
structure OverlaysRight (permutations : List Permutation) : Prop where
  /-- Every vector of options is visited, and nothing else. -/
  visited : ∀ options, options ∈ permutations.map (·.permutation.map BitVec.toNat) ↔
    cfg.Options options
  /-- No vector is visited twice. -/
  once : (permutations.map fun p => p.permutation.map BitVec.toNat).Nodup
  /-- A vector is visited at its position. -/
  at_position : ∀ options, cfg.Options options →
    permutations[cfg.position options]?.map (·.permutation.map BitVec.toNat) = some options
  /-- After every sequence of loads the dispatcher holds the options loaded, and the function it
  calls is the permutation of these, compiled from the text that these overlays give. -/
  dispatch : ∀ ucodeAddr loads, loads ≠ [] → (∀ load ∈ loads, cfg.IsLoad load) →
    ∃ slots text,
      cfg.runLoads (cfg.emitOverlayDispatcher permutations) ucodeAddr loads =
        some (slots, cfg.permutationName slots) ∧
      slots.map BitVec.toNat = cfg.loaded loads ∧
      callee (cfg.emittedFunctions permutations) (cfg.permutationName slots) = some text ∧
      ∀ a w, cfg.textAt (cfg.loaded loads) a = some w → text[a]? = some w

/-- No two vectors of options have the same suffix. -/
def SuffixesDiffer : Prop :=
  ∀ options options', cfg.Options options → cfg.Options options' →
    permutationSuffix (words options) = permutationSuffix (words options') → options = options'

/-- The condition under which the generated program is right. -/
structure OverlayCondition : Prop where
  counts : cfg.CountsFit
  index : IndexFits cfg.optionCounts
  suffixes : cfg.SuffixesDiffer
  fit : cfg.OverlaysFit

end Config

/-! ## Tables -/

theorem lookup_of_getElem? {α β : Type} [BEq α] [LawfulBEq α] {l : List (α × β)}
    (hnodup : (l.map Prod.fst).Nodup) {i : Nat} {k : α} {v : β} (h : l[i]? = some (k, v)) :
    l.lookup k = some v := by
  induction l generalizing i with
  | nil => simp at h
  | cons e l ih =>
    rw [List.map_cons, List.nodup_cons] at hnodup
    cases i with
    | zero =>
      cases h
      exact List.lookup_cons_self
    | succ i =>
      rw [List.getElem?_cons_succ] at h
      have hne : k ≠ e.1 := by
        rintro rfl
        exact hnodup.1 (List.mem_map.mpr ⟨_, List.mem_of_getElem? h, rfl⟩)
      rw [List.lookup_cons, beq_false_of_ne hne]
      exact ih hnodup.2 h

theorem lookup_zipIdx {α β : Type} [BEq β] [LawfulBEq β] {l : List α} {f : α → β}
    (hnodup : (l.map f).Nodup) {i : Nat} {x : α} (h : l[i]? = some x) :
    (l.zipIdx.map fun e => (f e.1, e.2)).lookup (f x) = some i := by
  have hkeys : ((l.zipIdx.map fun e => (f e.1, e.2)).map Prod.fst) = l.map f := by
    rw [List.map_map]
    conv_rhs => rw [← List.zipIdx_map_fst 0 l, List.map_map]
    rfl
  refine lookup_of_getElem? (hkeys ▸ hnodup) (i := i) ?_
  simp [h]

theorem map_toNat_words {counts options : List Nat} (hcounts : ∀ c ∈ counts, c ≤ 2 ^ 32)
    (h : IsNumeral counts options) : (words options).map BitVec.toNat = options := by
  induction h with
  | nil => rfl
  | @cons d c options counts hd _ ih =>
    rw [words_cons, List.map_cons, toNat_ofNat_count hd (hcounts c List.mem_cons_self),
      ih fun x hx => hcounts x (List.mem_cons_of_mem c hx)]

theorem toNat_injective : Function.Injective (BitVec.toNat : BitVec 32 → Nat) :=
  fun _ _ => BitVec.eq_of_toNat_eq

/-- The suffixes are digits, so that no permutation is named like the initial function. -/
theorem permutationSuffix_ne_initial (permutation : List (BitVec 32)) :
    permutationSuffix permutation ≠ ascii "_initial" := by
  intro h
  have hmem : (95 : BitVec 8) ∈ permutationSuffix permutation := by
    rw [h]
    decide
  obtain ⟨opt, _, hopt⟩ := List.mem_flatMap.mp hmem
  obtain ⟨c, hc, hcb⟩ := List.mem_map.mp hopt
  have h58 := isDigit_byte (Nat.isDigit_of_mem_toDigits (by decide) (by decide) hc)
  have hval := congrArg BitVec.toNat hcb
  rw [BitVec.toNat_ofNat, Nat.mod_eq_of_lt (by omega)] at hval
  change c.toNat = 95 at hval
  omega

namespace Config

variable {cfg : Config} {options : List Nat}

theorem position_eq_value (h : cfg.Options options) :
    cfg.position options = value cfg.optionCounts options := by
  rw [value_eq_sum h.length_eq]
  simp [position, optionCounts]

/-! ## The loads -/

theorem options_set (h : cfg.Options options) {load : Load} (hload : cfg.IsLoad load) :
    cfg.Options (options.set load.slot load.overlay) := by
  obtain ⟨slot, hslot, hlt⟩ := hload
  exact IsNumeral.set h (by rw [optionCounts, List.getElem?_map, hslot, Option.map_some]) hlt

theorem options_zeros (hpos : ∀ slot ∈ cfg.overlaySlots, slot.overlays ≠ []) :
    cfg.Options (zeros cfg.optionCounts) := by
  refine isNumeral_zeros fun c hc => ?_
  obtain ⟨slot, hslot, rfl⟩ := List.mem_map.mp hc
  exact List.length_pos_iff.mpr (hpos slot hslot)

theorem options_loaded (hpos : ∀ slot ∈ cfg.overlaySlots, slot.overlays ≠ []) {loads : List Load}
    (hloads : ∀ load ∈ loads, cfg.IsLoad load) : cfg.Options (cfg.loaded loads) := by
  have hstart := options_zeros hpos
  unfold loaded
  generalize zeros cfg.optionCounts = start at hstart
  induction loads generalizing start with
  | nil => exact hstart
  | cons load loads ih =>
    exact ih (fun l hl => hloads l (List.mem_cons_of_mem load hl)) _
      (options_set hstart (hloads load List.mem_cons_self))

/-- The loads that bring each slot to its option. -/
def loadsOf (options : List Nat) : List Load := options.zipIdx.map fun o => ⟨o.2, o.1⟩

theorem foldl_set_zipIdx (options before rest : List Nat) (hlen : rest.length = options.length) :
    (options.zipIdx before.length).foldl (fun v o => v.set o.2 o.1) (before ++ rest) =
      before ++ options := by
  induction options generalizing before rest with
  | nil =>
    obtain rfl := List.eq_nil_of_length_eq_zero hlen
    rfl
  | cons o options ih =>
    obtain ⟨x, rest, rfl⟩ := List.exists_cons_of_ne_nil (l := rest) (by rintro rfl; simp at hlen)
    have h := ih (before ++ [o]) rest (Nat.succ.inj hlen)
    simpa [List.zipIdx_cons] using h

/-- Every vector of options is reached by loads. -/
theorem loaded_loadsOf (h : cfg.Options options) : cfg.loaded (loadsOf options) = options := by
  have hlen : (zeros cfg.optionCounts).length = options.length := by
    rw [zeros, List.length_map, h.length_eq]
  have hset := foldl_set_zipIdx options [] (zeros cfg.optionCounts) hlen
  simpa [loaded, loadsOf, List.foldl_map] using hset

theorem isLoad_of_mem_loadsOf (h : cfg.Options options) :
    ∀ load ∈ loadsOf options, cfg.IsLoad load := by
  intro load hload
  obtain ⟨⟨o, i⟩, hmem, rfl⟩ := List.mem_map.mp hload
  obtain ⟨c, hc, hlt⟩ := IsNumeral.exists_radix h (List.mem_zipIdx_iff_getElem?.mp hmem)
  rw [optionCounts, List.getElem?_map] at hc
  obtain ⟨slot, hslot, rfl⟩ := Option.map_eq_some_iff.mp hc
  exact ⟨slot, hslot, hlt⟩

/-! ## A round of the dispatcher -/

theorem indexFrom_lt_limit {acc r : Bool × Nat} {counts digits : List Nat}
    (hacc : acc.2 < limit acc.1) (h : indexFrom acc counts digits = some r) :
    r.2 < limit r.1 := by
  induction counts generalizing acc digits with
  | nil =>
    cases h
    exact hacc
  | cons c rest ih =>
    cases digits with
    | nil =>
      cases h
      exact hacc
    | cons d digits =>
      obtain ⟨_, _, h⟩ := Option.bind_eq_some_iff.mp h
      obtain ⟨_, hsum, h⟩ := Option.bind_eq_some_iff.mp h
      exact ih (reduce_lt_limit hsum) h

/-- Where the index fits, the emitted expression is the value of the options. -/
theorem eval_index (hcounts : cfg.CountsFit) (hindex : IndexFits cfg.optionCounts)
    (hslots : cfg.overlaySlots ≠ []) (h : cfg.Options options) :
    ∃ index, (permIndex cfg.optionCounts).eval (slotsEnv (words options)) = some index ∧
      index.bits.toNat = value cfg.optionCounts options := by
  have hne : cfg.optionCounts ≠ [] := by simpa [optionCounts] using hslots
  have hlen : (words options).length = cfg.optionCounts.length := by
    rw [words, List.length_map, h.length_eq]
  obtain ⟨long, hrun⟩ := indexFrom_eq hindex (Nat.le_refl 0) h
  rw [Nat.zero_add] at hrun
  have hlt := indexFrom_lt_limit (by decide) hrun
  refine ⟨nonneg long (value cfg.optionCounts options), ?_, nonneg_bits_toNat hlt⟩
  rw [eval_permIndex hne hlen, map_toNat_words hcounts h, hrun, Option.map_some]

/-- Where the index fits, a load of an overlay of the configuration puts its number in its slot
and calls the permutation at the position of the options. -/
theorem swap_eq (hcounts : cfg.CountsFit) (hindex : IndexFits cfg.optionCounts)
    (haddr : (cfg.overlaySlots.map fun slot => slot.textAddress &&& rspMemMask).Nodup)
    (hoffsets : ∀ slot ∈ cfg.overlaySlots, (slot.overlays.map (·.offset)).Nodup)
    {permutations : List Permutation} {p : Permutation} (h : cfg.Options options) {load : Load}
    (hload : cfg.IsLoad load)
    (hp : permutations[value cfg.optionCounts (options.set load.slot load.overlay)]? = some p)
    (ucodeAddr : BitVec 32) :
    (cfg.emitOverlayDispatcher permutations).swap ucodeAddr (words options)
        (cfg.dmaOf ucodeAddr load).1 (cfg.dmaOf ucodeAddr load).2 =
      some (words (options.set load.slot load.overlay), cfg.permutationName p.permutation) := by
  have hset := options_set h hload
  obtain ⟨slot, hslot, hlt⟩ := hload
  have hmem := List.mem_of_getElem? hslot
  have hoverlay := List.getElem?_eq_getElem hlt
  have hdma : cfg.dmaOf ucodeAddr load =
      (slot.textAddress &&& rspMemMask, ucodeAddr + slot.overlays[load.overlay].offset) := by
    simp only [dmaOf, hslot, hoverlay, Option.map_some, Option.getD_some]
  have himem : (cfg.emitOverlayDispatcher permutations).imemToSlot.lookup
      (slot.textAddress &&& rspMemMask) = some load.slot := lookup_zipIdx haddr hslot
  have htable : (cfg.emitOverlayDispatcher permutations).offsetToOverlay[load.slot]? =
      some (slot.overlays.zipIdx.map fun o => (o.1.offset, o.2)) := by
    simp only [emitOverlayDispatcher, List.getElem?_map, hslot, Option.map_some]
  have hoption := lookup_zipIdx (hoffsets slot hmem) hoverlay
  obtain ⟨index, heval, hvalue⟩ :=
    eval_index hcounts hindex (List.ne_nil_of_mem hmem) hset
  have hslots : (words options).set load.slot (BitVec.ofNat 32 load.overlay) =
      words (options.set load.slot load.overlay) := List.map_set.symm
  have hname : (cfg.emitOverlayDispatcher permutations).permutations[index.bits.toNat]? =
      some (cfg.permutationName p.permutation) := by
    simp only [emitOverlayDispatcher, List.getElem?_map, hvalue, hp, Option.map_some]
  have hsub : ucodeAddr + slot.overlays[load.overlay].offset - ucodeAddr =
      slot.overlays[load.overlay].offset := by
    rw [BitVec.add_comm, BitVec.add_sub_cancel]
  rw [hdma, Dispatcher.swap, himem, Option.bind_some, htable, Option.bind_some, hsub, hoption,
    Option.bind_some, hslots]
  change ((permIndex cfg.optionCounts).eval _).bind _ = _
  rw [heval, Option.bind_some, hname, Option.map_some]

/-- A round that succeeds calls the function at the index of the slots it leaves. -/
theorem swap_some {d : Dispatcher} {ucodeAddr mem dram : BitVec 32}
    {slots slots' : List (BitVec 32)} {name : Str}
    (h : d.swap ucodeAddr slots mem dram = some (slots', name)) :
    ∃ index, d.index.eval (slotsEnv slots') = some index ∧
      d.permutations[index.bits.toNat]? = some name := by
  obtain ⟨slot, _, h⟩ := Option.bind_eq_some_iff.mp h
  obtain ⟨table, _, h⟩ := Option.bind_eq_some_iff.mp h
  obtain ⟨overlay, _, h⟩ := Option.bind_eq_some_iff.mp h
  obtain ⟨index, heval, h⟩ := Option.bind_eq_some_iff.mp h
  obtain ⟨name', hname, h⟩ := Option.map_eq_some_iff.mp h
  cases h
  exact ⟨index, heval, hname⟩

/-- The last round of a run. -/
theorem runLoads_concat {d : Dispatcher} {ucodeAddr : BitVec 32} {loads : List Load} {load : Load} :
    cfg.runLoads d ucodeAddr (loads ++ [load]) =
      (cfg.runLoads d ucodeAddr loads).bind fun state =>
        d.swap ucodeAddr state.1 (cfg.dmaOf ucodeAddr load).1 (cfg.dmaOf ucodeAddr load).2 := by
  simp [runLoads, List.foldlM_append]

theorem loaded_concat {loads : List Load} {load : Load} :
    cfg.loaded (loads ++ [load]) = (cfg.loaded loads).set load.slot load.overlay := by
  simp [loaded, List.foldl_append]

/-! ## The run under the condition -/

/-- The permutations in the order of the values of their options, each with the text its overlays
give. -/
structure Enumerated (cfg : Config) (permutations : List Permutation) : Prop where
  length : permutations.length = cfg.optionCounts.prod
  entry : ∀ i p, permutations[i]? = some p → ∃ v, cfg.Options v ∧ value cfg.optionCounts v = i ∧
    p.permutation = words v ∧ Shows p.instrWords (cfg.textAt v) ∧
    p.instrWords.length = cfg.instrWords.length

variable {permutations : List Permutation}

/-- The entry at the value of a vector of options is that of the vector. -/
theorem Enumerated.at_value (h : cfg.Enumerated permutations) (hv : cfg.Options options) :
    ∃ p, permutations[value cfg.optionCounts options]? = some p ∧
      p.permutation = words options ∧ Shows p.instrWords (cfg.textAt options) ∧
      p.instrWords.length = cfg.instrWords.length := by
  have hlt : value cfg.optionCounts options < permutations.length := by
    rw [h.length]
    exact value_lt_prod hv
  have hp := List.getElem?_eq_getElem hlt
  obtain ⟨v, hoptions, hvalue, hrest⟩ := h.entry _ _ hp
  obtain rfl := value_injective hoptions hv hvalue
  exact ⟨_, hp, hrest⟩

/-- The names of the generated functions differ when the suffixes do. -/
theorem Enumerated.names_nodup (h : cfg.Enumerated permutations)
    (hsuffixes : cfg.SuffixesDiffer) :
    ((cfg.emittedFunctions permutations).map Prod.fst).Nodup := by
  rw [emittedFunctions, List.map_cons, List.map_map, List.nodup_cons]
  constructor
  · intro hmem
    obtain ⟨p, _, hp⟩ := List.mem_map.mp hmem
    exact permutationSuffix_ne_initial p.permutation (List.append_cancel_left hp)
  · refine List.nodup_iff_getElem?_ne_getElem?.mpr fun i j hij hj => ?_
    rw [List.length_map] at hj
    rw [List.getElem?_map, List.getElem?_map, List.getElem?_eq_getElem hj,
      List.getElem?_eq_getElem (Nat.lt_trans hij hj), Option.map_some, Option.map_some]
    intro heq
    obtain ⟨v, hv, hvi, hpv, _⟩ := h.entry _ _ (List.getElem?_eq_getElem (Nat.lt_trans hij hj))
    obtain ⟨w, hw, hwj, hpw, _⟩ := h.entry _ _ (List.getElem?_eq_getElem hj)
    have hname := List.append_cancel_left (Option.some.inj heq)
    rw [hpv, hpw] at hname
    have hvw := hsuffixes v w hv hw hname
    rw [hvw] at hvi
    omega

/-- **Every run of loads** leaves the options loaded in the slots, and ends with the call of the
permutation of these. -/
theorem runLoads_eq (hcounts : cfg.CountsFit) (hindex : IndexFits cfg.optionCounts)
    (hpos : ∀ slot ∈ cfg.overlaySlots, slot.overlays ≠ [])
    (haddr : (cfg.overlaySlots.map fun slot => slot.textAddress &&& rspMemMask).Nodup)
    (hoffsets : ∀ slot ∈ cfg.overlaySlots, (slot.overlays.map (·.offset)).Nodup)
    (h : cfg.Enumerated permutations) (ucodeAddr : BitVec 32) {loads : List Load}
    (hloads : ∀ load ∈ loads, cfg.IsLoad load) :
    ∃ name, cfg.runLoads (cfg.emitOverlayDispatcher permutations) ucodeAddr loads =
        some (words (cfg.loaded loads), name) ∧
      (loads ≠ [] → name = cfg.permutationName (words (cfg.loaded loads))) := by
  induction loads using List.reverseRecOn with
  | nil =>
    refine ⟨cfg.outputFunctionName ++ ascii "_initial", ?_, fun hne => absurd rfl hne⟩
    rw [loaded, List.foldl_nil, words_zeros, optionCounts, List.map_map]
    rfl
  | append_singleton loads load ih =>
    have hbefore : ∀ l ∈ loads, cfg.IsLoad l := fun l hl =>
      hloads l (List.mem_append_left [load] hl)
    have hload := hloads load (List.mem_append_right loads List.mem_cons_self)
    obtain ⟨name, hrun, _⟩ := ih hbefore
    have hoptions := options_loaded hpos hbefore
    obtain ⟨p, hp, hperm, _⟩ := h.at_value (options_set hoptions hload)
    refine ⟨cfg.permutationName p.permutation, ?_, fun _ => ?_⟩
    · rw [runLoads_concat, hrun, Option.bind_some,
        swap_eq hcounts hindex haddr hoffsets hoptions hload hp, loaded_concat]
    · rw [hperm, loaded_concat]

/-- **Under the condition the permutations and the dispatcher are right.** -/
theorem overlaysRight_of_condition (hslots : cfg.overlaySlots ≠ [])
    (hpos : ∀ slot ∈ cfg.overlaySlots, slot.overlays ≠ [])
    (haddr : (cfg.overlaySlots.map fun slot => slot.textAddress &&& rspMemMask).Nodup)
    (hoffsets : ∀ slot ∈ cfg.overlaySlots, (slot.overlays.map (·.offset)).Nodup)
    (hcond : cfg.OverlayCondition) :
    ∃ fuel permutations, cfg.expandPermutations fuel = some permutations ∧
      cfg.OverlaysRight permutations := by
  obtain ⟨fuel, permutations, hrun, hlen, hentry⟩ :=
    expandPermutations_total hcond.counts hslots hpos
  have h : cfg.Enumerated permutations := ⟨hlen, hentry⟩
  have hvector : ∀ {p : Permutation} {v : List Nat}, cfg.Options v → p.permutation = words v →
      p.permutation.map BitVec.toNat = v := fun hv hp => by
    rw [hp, map_toNat_words hcond.counts hv]
  have hat : ∀ v, cfg.Options v →
      permutations[cfg.position v]?.map (·.permutation.map BitVec.toNat) = some v := by
    intro v hv
    obtain ⟨p, hp, hperm, _⟩ := h.at_value hv
    rw [position_eq_value hv, hp, Option.map_some, hvector hv hperm]
  refine ⟨fuel, permutations, hrun, ?_, ?_, hat, ?_⟩
  · intro v
    constructor
    · intro hmem
      obtain ⟨p, hp, rfl⟩ := List.mem_map.mp hmem
      obtain ⟨i, hi⟩ := List.getElem?_of_mem hp
      obtain ⟨w, hw, _, hperm, _⟩ := h.entry i p hi
      exact (hvector hw hperm).symm ▸ hw
    · intro hv
      obtain ⟨p, hp, hperm⟩ := Option.map_eq_some_iff.mp (hat v hv)
      exact List.mem_map.mpr ⟨p, List.mem_of_getElem? hp, hperm⟩
  · refine List.nodup_iff_getElem?_ne_getElem?.mpr fun i j hij hj => ?_
    rw [List.length_map] at hj
    have hi := Nat.lt_trans hij hj
    obtain ⟨v, hv, hvi, hpv, _⟩ := h.entry _ _ (List.getElem?_eq_getElem hi)
    obtain ⟨w, hw, hwj, hpw, _⟩ := h.entry _ _ (List.getElem?_eq_getElem hj)
    rw [List.getElem?_map, List.getElem?_map, List.getElem?_eq_getElem hj,
      List.getElem?_eq_getElem hi, Option.map_some, Option.map_some, hvector hv hpv,
      hvector hw hpw]
    rintro heq
    cases heq
    omega
  · intro ucodeAddr loads hne hloads
    obtain ⟨name, hloop, hname⟩ :=
      runLoads_eq hcond.counts hcond.index hpos haddr hoffsets h ucodeAddr hloads
    have hoptions := options_loaded hpos hloads
    obtain ⟨p, hp, hperm, hshows, hsize⟩ := h.at_value hoptions
    refine ⟨_, p.instrWords, by rw [hloop, hname hne], map_toNat_words hcond.counts hoptions,
      ?_, fun a w hw => ?_⟩
    · rw [callee, if_pos (h.names_nodup hcond.suffixes), ← hperm]
      refine lookup_of_getElem? (h.names_nodup hcond.suffixes)
        (i := value cfg.optionCounts (cfg.loaded loads) + 1) ?_
      rw [emittedFunctions, List.getElem?_cons_succ, List.getElem?_map, hp, Option.map_some]
    · -- nothing is loaded past the base text, so the position is inside the image
      have ha : a < p.instrWords.length := by
        rw [hsize]
        by_contra hge
        rw [textAt_eq_none hcond.fit (Nat.le_of_not_lt hge)] at hw
        cases hw
      rw [hshows a ha, hw]

/-! ## The condition from the run -/

section Necessary

variable (hslots : cfg.overlaySlots ≠ []) (hpos : ∀ slot ∈ cfg.overlaySlots, slot.overlays ≠ [])
  (h : cfg.OverlaysRight permutations)

include hpos h in
/-- A slot with more than 2^32 overlays has an option that the counter never holds. -/
theorem OverlaysRight.counts : cfg.CountsFit := by
  intro c hc
  by_contra hbig
  obtain ⟨i, hi⟩ := List.getElem?_of_mem hc
  have hzeros : cfg.Options (zeros cfg.optionCounts) := options_zeros hpos
  have hset : cfg.Options ((zeros cfg.optionCounts).set i (2 ^ 32)) :=
    IsNumeral.set hzeros hi (Nat.lt_of_not_le hbig)
  obtain ⟨p, _, hp⟩ := List.mem_map.mp ((h.visited _).mpr hset)
  have hlt : i < (zeros cfg.optionCounts).length := by
    rw [zeros, List.length_map]
    exact (List.getElem?_eq_some_iff.mp hi).1
  have hmem : 2 ^ 32 ∈ p.permutation.map BitVec.toNat := by
    rw [hp]
    exact List.mem_set hlt _
  obtain ⟨w, _, hw⟩ := List.mem_map.mp hmem
  exact absurd w.isLt (by omega)

include h in
theorem OverlaysRight.at_value (hv : cfg.Options options) :
    ∃ p, permutations[value cfg.optionCounts options]? = some p ∧
      p.permutation.map BitVec.toNat = options :=
  Option.map_eq_some_iff.mp (position_eq_value hv ▸ h.at_position options hv)

include hslots h in
/-- The run that brings every slot to its option. -/
theorem OverlaysRight.run (hv : cfg.Options options) :
    ∃ slots text,
      cfg.runLoads (cfg.emitOverlayDispatcher permutations) 0 (loadsOf options) =
        some (slots, cfg.permutationName slots) ∧
      slots.map BitVec.toNat = options ∧
      callee (cfg.emittedFunctions permutations) (cfg.permutationName slots) = some text ∧
      ∀ a w, cfg.textAt options a = some w → text[a]? = some w := by
  have hne : loadsOf options ≠ [] := by
    intro hnil
    have hlen := IsNumeral.length_eq hv
    have hzero := congrArg List.length hnil
    simp only [loadsOf, List.length_map, List.length_zipIdx, List.length_nil] at hzero
    rw [hzero, optionCounts, List.length_map] at hlen
    exact hslots (List.eq_nil_of_length_eq_zero hlen.symm)
  have hrun := h.dispatch 0 (loadsOf options) hne (isLoad_of_mem_loadsOf hv)
  rwa [loaded_loadsOf hv] at hrun

include hslots hpos h in
theorem OverlaysRight.names_nodup :
    ((cfg.emittedFunctions permutations).map Prod.fst).Nodup := by
  have hzeros : cfg.Options (zeros cfg.optionCounts) := options_zeros hpos
  obtain ⟨slots, text, _, _, hcallee, _⟩ := h.run hslots hzeros
  unfold callee at hcallee
  split at hcallee
  · assumption
  · cases hcallee

include hslots hpos h in
/-- Two entries of one name are one entry. -/
theorem OverlaysRight.eq_of_name_eq {i j : Nat} {p q : Permutation}
    (hp : permutations[i]? = some p) (hq : permutations[j]? = some q)
    (hname : cfg.permutationName p.permutation = cfg.permutationName q.permutation) : i = j := by
  have hnodup := h.names_nodup hslots hpos
  rw [emittedFunctions, List.map_cons, List.map_map, List.nodup_cons] at hnodup
  refine (List.getElem?_inj ?_ hnodup.2).mp ?_
  · rw [List.length_map]
    exact (List.getElem?_eq_some_iff.mp hp).1
  · rw [List.getElem?_map, List.getElem?_map, hp, hq]
    exact congrArg some hname

include hslots hpos h in
theorem OverlaysRight.suffixes : cfg.SuffixesDiffer := by
  intro v w hv hw hsuffix
  obtain ⟨p, hp, hpv⟩ := h.at_value hv
  obtain ⟨q, hq, hqw⟩ := h.at_value hw
  have hwords : ∀ {r : Permutation} {u : List Nat}, cfg.Options u →
      r.permutation.map BitVec.toNat = u → r.permutation = words u := fun hu hr =>
    List.map_injective_iff.mpr toNat_injective
      (hr.trans (map_toNat_words (h.counts hpos) hu).symm)
  have hname : cfg.permutationName p.permutation = cfg.permutationName q.permutation := by
    rw [permutationName, permutationName, hwords hv hpv, hwords hw hqw, hsuffix]
  exact value_injective hv hw (h.eq_of_name_eq hslots hpos hp hq hname)

include hslots hpos h in
/-- The run that brings every slot to its last option needs the index to fit. -/
theorem OverlaysRight.index : IndexFits cfg.optionCounts := by
  by_contra hfits
  have hcountsPos : ∀ c ∈ cfg.optionCounts, 0 < c := by
    intro c hc
    obtain ⟨slot, hslot, rfl⟩ := List.mem_map.mp hc
    exact List.length_pos_iff.mpr (hpos slot hslot)
  have hlargest : cfg.Options (largest cfg.optionCounts) := isNumeral_largest hcountsPos
  obtain ⟨slots, text, hrun, hvector, _⟩ := h.run hslots hlargest
  obtain ⟨loads, load, hloads⟩ : ∃ loads load, loadsOf (largest cfg.optionCounts) =
      loads ++ [load] := by
    rcases List.eq_nil_or_concat (loadsOf (largest cfg.optionCounts)) with hnil | ⟨l, x, hx⟩
    · have hlen := congrArg List.length hnil
      simp only [loadsOf, largest, optionCounts, List.length_map, List.length_zipIdx,
        List.length_nil] at hlen
      exact absurd (List.eq_nil_of_length_eq_zero hlen) hslots
    · exact ⟨l, x, by rw [hx, List.concat_eq_append]⟩
  rw [hloads, runLoads_concat] at hrun
  obtain ⟨state, _, hswap⟩ := Option.bind_eq_some_iff.mp hrun
  obtain ⟨index, heval, hname⟩ := swap_some hswap
  have hlen : slots.length = cfg.optionCounts.length := by
    have hmap := congrArg List.length hvector
    rwa [List.length_map, hlargest.length_eq] at hmap
  have hne : cfg.optionCounts ≠ [] := by simpa [optionCounts] using hslots
  have hexpr := eval_permIndex hne hlen
  change (permIndex cfg.optionCounts).eval _ = _ at heval
  rw [hexpr, hvector] at heval
  obtain ⟨r, hr, rfl⟩ := Option.map_eq_some_iff.mp heval
  -- the index is too small, and the entry there has the name of the last permutation
  have hloss := indexFrom_largest_ne hcountsPos hfits hr
  rw [nonneg_bits_toNat (indexFrom_lt_limit (by decide) hr)] at hname
  simp only [emitOverlayDispatcher, List.getElem?_map] at hname
  obtain ⟨p, hp, hpname⟩ := Option.map_eq_some_iff.mp hname
  obtain ⟨q, hq, hqv⟩ := h.at_value hlargest
  have hslotsq : slots = q.permutation :=
    List.map_injective_iff.mpr toNat_injective (hvector.trans hqv.symm)
  have heq := h.eq_of_name_eq hslots hpos hp hq (by rw [hpname, hslotsq])
  simp only [Nat.zero_add] at hloss
  omega

include hslots hpos h in
/-- A word that an overlay has past the base text is in no image. -/
theorem OverlaysRight.fit {fuel : Nat} (hrun : cfg.expandPermutations fuel = some permutations) :
    cfg.OverlaysFit := by
  by_contra hfit
  obtain ⟨options, a, hoptions, ha, hloaded⟩ := exists_textAt_ne_none hpos hfit
  obtain ⟨w, hw⟩ := Option.ne_none_iff_exists'.mp hloaded
  obtain ⟨slots, text, _, _, hcallee, hshows⟩ := h.run hslots hoptions
  have htext := hshows a w hw
  rw [callee, if_pos (h.names_nodup hslots hpos)] at hcallee
  obtain ⟨before, after, hsplit, _⟩ := List.lookup_eq_some_iff.mp hcallee
  have hmem : (cfg.permutationName slots, text) ∈ cfg.emittedFunctions permutations := by
    rw [hsplit]
    exact List.mem_append_right before List.mem_cons_self
  have hsize : text.length = cfg.instrWords.length := by
    rcases List.mem_cons.mp hmem with heq | hmem
    · exact absurd (List.append_cancel_left (congrArg Prod.fst heq))
        (permutationSuffix_ne_initial slots)
    · obtain ⟨p, hp, heq⟩ := List.mem_map.mp hmem
      obtain ⟨_, rfl⟩ := Prod.mk.inj heq
      exact length_of_image (image_of_mem_expandFrom hrun p hp)
  rw [List.getElem?_eq_none (by omega)] at htext
  cases htext

end Necessary

/-- **The permutations and the dispatcher are right exactly when** the options are counted in 32
bits, the index keeps to its types, no two vectors of options have one suffix, and every overlay
ends inside the base text. -/
theorem overlaysRight_iff (hslots : cfg.overlaySlots ≠ [])
    (hpos : ∀ slot ∈ cfg.overlaySlots, slot.overlays ≠ [])
    (haddr : (cfg.overlaySlots.map fun slot => slot.textAddress &&& rspMemMask).Nodup)
    (hoffsets : ∀ slot ∈ cfg.overlaySlots, (slot.overlays.map (·.offset)).Nodup) :
    (∃ fuel permutations, cfg.expandPermutations fuel = some permutations ∧
      cfg.OverlaysRight permutations) ↔ cfg.OverlayCondition := by
  constructor
  · rintro ⟨fuel, permutations, hrun, h⟩
    exact ⟨h.counts hpos, h.index hslots hpos, h.suffixes hslots hpos, h.fit hslots hpos hrun⟩
  · exact overlaysRight_of_condition hslots hpos haddr hoffsets

/-! ## Suffixes -/

theorem decimal_of_lt_ten {n : Nat} (h : n < 10) : decimal n = [BitVec.ofNat 8 (48 + n)] := by
  revert n
  decide

/-- Options below ten are told apart by the suffix. -/
theorem permutationSuffix_inj {counts v w : List Nat} (h : ∀ c ∈ counts, c ≤ 10)
    (hv : IsNumeral counts v) (hw : IsNumeral counts w)
    (hsuffix : permutationSuffix (words v) = permutationSuffix (words w)) : v = w := by
  induction hv generalizing w with
  | nil => exact (List.forall₂_nil_right_iff.mp hw).symm
  | @cons d c v counts hd _ ih =>
    obtain ⟨e, w, he, htail, rfl⟩ := List.forall₂_cons_right_iff.mp hw
    have hc := h c List.mem_cons_self
    rw [words_cons, words_cons, permutationSuffix, permutationSuffix, List.flatMap_cons,
      List.flatMap_cons, toNat_ofNat_count hd (by omega), toNat_ofNat_count he (by omega),
      decimal_of_lt_ten (by omega), decimal_of_lt_ten (by omega)] at hsuffix
    obtain ⟨hhead, hrest⟩ := List.cons_eq_cons.mp hsuffix
    have hval := congrArg BitVec.toNat hhead
    rw [BitVec.toNat_ofNat, BitVec.toNat_ofNat] at hval
    obtain rfl : d = e := by omega
    rw [ih (fun x hx => h x (List.mem_cons_of_mem c hx)) htail hrest]

theorem suffixesDiffer_of_le_ten (h : ∀ c ∈ cfg.optionCounts, c ≤ 10) : cfg.SuffixesDiffer :=
  fun _ _ hv hw hsuffix => permutationSuffix_inj h hv hw hsuffix

end Config

/-- Two slots, one of two overlays and one of three, inside a text of four words. -/
def twoSlots : Config where
  textAddress := 0x04001080#32
  outputFunctionName := ascii "microcode"
  instrWords := [0, 0, 0, 0]
  overlaySlots :=
    [⟨0x04001080#32, [⟨0x100#32, [1]⟩, ⟨0x200#32, [2]⟩]⟩,
      ⟨0x04001088#32, [⟨0x100#32, [3, 4]⟩, ⟨0x200#32, [5]⟩, ⟨0x300#32, [6, 7]⟩]⟩]

theorem twoSlots_overlaysRight :
    ∃ fuel permutations, twoSlots.expandPermutations fuel = some permutations ∧
      twoSlots.OverlaysRight permutations :=
  (Config.overlaysRight_iff (by decide) (by decide) (by decide) (by decide)).mpr
    { counts := by unfold Config.CountsFit; decide
      index := indexFits_of_prod_le (by decide) (by decide)
      suffixes := Config.suffixesDiffer_of_le_ten (by decide)
      fit := by unfold Config.OverlaysFit; decide }

/-- One slot at the end of a text of one word. -/
def slotPastText : Config where
  textAddress := 0x04001080#32
  outputFunctionName := ascii "microcode"
  instrWords := [0]
  overlaySlots := [⟨0x04001084#32, [⟨0x100#32, [1]⟩]⟩]

/-- The words of an overlay past the base text are lost. -/
theorem slotPastText_not_overlaysRight :
    slotPastText.overlaySlots ≠ [] ∧ (∀ slot ∈ slotPastText.overlaySlots, slot.overlays ≠ []) ∧
      ¬ ∃ fuel permutations, slotPastText.expandPermutations fuel = some permutations ∧
        slotPastText.OverlaysRight permutations := by
  refine ⟨by decide, by decide, ?_⟩
  rintro ⟨fuel, permutations, hrun, h⟩
  have hfit := h.fit (by decide) (by decide) hrun _ List.mem_cons_self _ List.mem_cons_self
    (by decide)
  exact absurd hfit (by decide)

end N64Recomp.RSPRecomp
