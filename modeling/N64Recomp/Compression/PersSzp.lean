import N64Recomp.Compression.Yay0

/-!
# PERS-SZP wrappers

A PERS-SZP wrapper is a header of 0x18 bytes in front of a Yay0 stream. The header records the
size of the output twice.

## Main definitions

* `persSzpDecompress`: the decoder of wrapped streams
* `Wraps`: data that wrap a stream, with the two sizes recorded

## Main results

* `persSzpDecompress_eq_ok_iff`: what the decoder of wrapped streams accepts
* `decompress_correct`: both decoders are correct and never leave their bounds
-/

namespace N64Recomp.Compression

open BackReference

def persSzpDecompress (data : List (BitVec 8)) : Except Stop (List (BitVec 8)) := do
  require (0x18 ≤ data.length)
  require (data.take 8 = ascii "PERS-SZP")
  let payloadOff ← get (romWord data 0x08)
  let decompSizeA ← get (romWord data 0x0C)
  let decompSizeB ← get (romWord data 0x10)
  require (payloadOff = 0x18#32 ∧ decompSizeA = decompSizeB)
  require (payloadOff.toNat < data.length)
  let out ← yay0Decompress (data.drop payloadOff.toNat)
  require (out.length = decompSizeA.toNat)
  return out

/-- The data wrap a stream, with two sizes of its output. -/
structure Wraps (data stream : List (BitVec 8)) (sizeA sizeB : Nat) : Prop where
  magic : data.take 8 = ascii "PERS-SZP"
  payload : romWord data 0x08 = some 0x18#32
  sizeA : (romWord data 0x0C).map BitVec.toNat = some sizeA
  sizeB : (romWord data 0x10).map BitVec.toNat = some sizeB
  header : 0x18 ≤ data.length
  stream : data.drop 0x18 = stream

section Wrapped

variable {data stream out : List (BitVec 8)} {sizeA sizeB : Nat}

/-- An empty stream is not decoded. -/
theorem length_pos_of_yay0Decompress (h : yay0Decompress stream = .ok out) :
    0 < stream.length := by
  obtain ⟨_, hheader, _⟩ := Except.bind_eq_ok_iff.mp h
  have hlen := require_eq_ok_iff.mp hheader
  omega

/-- **A wrapped stream is decoded exactly when** the stream is, to an output of both sizes. -/
theorem persSzpDecompress_eq_ok_iff :
    persSzpDecompress data = .ok out ↔
      ∃ stream sizeA sizeB, Wraps data stream sizeA sizeB ∧ yay0Decompress stream = .ok out ∧
        sizeA = out.length ∧ sizeB = out.length := by
  constructor
  · intro h
    obtain ⟨_, hheader, h⟩ := Except.bind_eq_ok_iff.mp h
    obtain ⟨_, hmagic, h⟩ := Except.bind_eq_ok_iff.mp h
    obtain ⟨payload, hpayload, h⟩ := Except.bind_eq_ok_iff.mp h
    obtain ⟨a, ha, h⟩ := Except.bind_eq_ok_iff.mp h
    obtain ⟨b, hb, h⟩ := Except.bind_eq_ok_iff.mp h
    obtain ⟨_, hsizes, h⟩ := Except.bind_eq_ok_iff.mp h
    obtain ⟨_, _, h⟩ := Except.bind_eq_ok_iff.mp h
    obtain ⟨out', hstream, h⟩ := Except.bind_eq_ok_iff.mp h
    obtain ⟨_, hlen, h⟩ := Except.bind_eq_ok_iff.mp h
    cases h
    obtain ⟨rfl, rfl⟩ := require_eq_ok_iff.mp hsizes
    have hsize := require_eq_ok_iff.mp hlen
    refine ⟨data.drop 0x18, a.toNat, a.toNat, ?_, hstream, hsize.symm, hsize.symm⟩
    exact
      { magic := require_eq_ok_iff.mp hmagic
        payload := get_eq_ok_iff.mp hpayload
        sizeA := by rw [get_eq_ok_iff.mp ha, Option.map_some]
        sizeB := by rw [get_eq_ok_iff.mp hb, Option.map_some]
        header := require_eq_ok_iff.mp hheader
        stream := rfl }
  · rintro ⟨stream, sizeA, sizeB, hwraps, hstream, rfl, rfl⟩
    obtain ⟨a, ha, hsizeA⟩ := Option.map_eq_some_iff.mp hwraps.sizeA
    obtain ⟨b, hb, hsizeB⟩ := Option.map_eq_some_iff.mp hwraps.sizeB
    obtain rfl : a = b := BitVec.eq_of_toNat_eq (hsizeA.trans hsizeB.symm)
    have hpos := length_pos_of_yay0Decompress hstream
    rw [← hwraps.stream, List.length_drop] at hpos
    have hpast : (0x18#32).toNat < data.length := by
      change 0x18 < data.length
      omega
    rw [persSzpDecompress, require_of hwraps.header, require_of hwraps.magic, hwraps.payload, ha,
      hb]
    simp only [get_some, Except.ok_bind, and_self, require_of trivial, require_of hpast]
    change (yay0Decompress (data.drop 0x18) >>= fun out => _) = _
    rw [hwraps.stream, hstream, Except.ok_bind, require_of hsizeA.symm]
    rfl

theorem persSzpDecompress_inBounds : InBounds (persSzpDecompress data) := by
  refine (inBounds_require _).bind fun _ hheader => (inBounds_require _).bind fun _ _ => ?_
  have hlen := require_eq_ok_iff.mp hheader
  refine (inBounds_get (romWord_isSome_iff.mpr (by omega))).bind fun payload _ => ?_
  refine (inBounds_get (romWord_isSome_iff.mpr (by omega))).bind fun a _ => ?_
  refine (inBounds_get (romWord_isSome_iff.mpr (by omega))).bind fun b _ => ?_
  refine (inBounds_require _).bind fun _ _ => (inBounds_require _).bind fun _ _ => ?_
  refine yay0Decompress_inBounds.bind fun out _ => ?_
  exact (inBounds_require _).bind fun _ _ => inBounds_ok _

end Wrapped

/-- **Both decoders are correct**: packings are decoded to their expansions, nothing else is
decoded, a wrapped stream is decoded when the stream is and both sizes are those of the output, and
no read or write is out of bounds. -/
theorem decompress_correct :
    (∀ data tokens, (∀ t ∈ tokens, Encodable t) → ValidFrom [] tokens →
      IsPacking data tokens (expandFrom [] tokens).length →
        yay0Decompress data = .ok (expandFrom [] tokens)) ∧
    (∀ data, InBounds (yay0Decompress data)) ∧
    (∀ data, (∃ out, yay0Decompress data = .ok out) ↔
      ∃ tokens, (∀ t ∈ tokens, Encodable t) ∧ ValidFrom [] tokens ∧
        IsPacking data tokens (expandFrom [] tokens).length) ∧
    (∀ data, InBounds (persSzpDecompress data)) ∧
    (∀ data out, persSzpDecompress data = .ok out ↔
      ∃ stream sizeA sizeB, Wraps data stream sizeA sizeB ∧ yay0Decompress stream = .ok out ∧
        sizeA = out.length ∧ sizeB = out.length) := by
  refine ⟨fun data tokens => yay0Decompress_of_packing, fun data => yay0Decompress_inBounds,
    fun data => ⟨?_, ?_⟩, fun data => persSzpDecompress_inBounds,
    fun data out => persSzpDecompress_eq_ok_iff⟩
  · rintro ⟨out, h⟩
    obtain ⟨tokens, hencodable, hvalid, hpacking, rfl⟩ := exists_packing h
    exact ⟨tokens, hencodable, hvalid, hpacking⟩
  · rintro ⟨tokens, hencodable, hvalid, hpacking⟩
    exact ⟨_, yay0Decompress_of_packing hencodable hvalid hpacking⟩

/-- A stream of a literal and a copy that repeats it four times. -/
def runStream : List (BitVec 8) :=
  ascii "Yay0" ++ [0, 0, 0, 5, 0, 0, 0, 20, 0, 0, 0, 22, 0x80, 0, 0, 0, 0x20, 0x00, 0x41]

/-- An overlapping copy is decoded. -/
theorem runStream_decompress :
    yay0Decompress runStream = .ok [0x41, 0x41, 0x41, 0x41, 0x41] := by
  refine decompress_correct.1 runStream [.literal 0x41, .copy 1 4] ?_ ?_ ?_
  · intro t ht
    rcases List.mem_pair.mp ht with rfl | rfl
    · trivial
    · exact ⟨by decide, by decide, by decide, by decide⟩
  · exact ⟨trivial, ⟨by decide, by decide⟩, trivial⟩
  · refine ⟨by decide, by decide, by decide, 20, 22, by decide, by decide, by decide, by decide, ?_,
      ?_, ?_⟩
    · rintro (_ | _ | i) t h
      · cases h
        decide
      · cases h
        decide
      · simp at h
    · rintro (_ | j) w h
      · cases h
        decide
      · change [0x2000#16][j + 1]? = some w at h
        simp at h
    · rintro (_ | j) b h
      · cases h
        decide
      · change [0x41#8][j + 1]? = some b at h
        simp at h

end N64Recomp.Compression
