import Mathlib.Logic.Relation
import N64Recomp.Mips.MulDiv

/-!
# Control transfers with a delay slot

The machine whose branches and jumps execute the instruction behind them before control goes on. A
step is an instruction together with its delay slot. The code of a function, the body, is run in
steps of its own: the calls of functions outside of it are taken as what they leave.

## Main definitions

* `Op`, `Op.exec`: the instructions that do not transfer control
* `Flow`, `Cpu`: the instructions of a program
* `Cpu.Step`: an instruction, with its slot
* `Cpu.BodyStep`, `Cpu.BodyExit`: the steps of a body, and how it is left

## Main results

* `Op.exec_gpr`: an instruction leaves the registers that it does not write
* `Cpu.Step.next_inv`, `Cpu.Step.direct_inv`, `Cpu.Step.register_inv`: what each kind of step is
-/

namespace Mips

variable {w : Nat}

/-! ### Instructions that do not transfer control -/

/-- The instructions that do not transfer control. -/
inductive Op
  | nop
  | instr (i : Instr)
  | mulDiv (op : MulDivOp) (rs rt : Reg)
  deriving DecidableEq, Repr

/-- The state with other values of `hi` and `lo`. -/
def State.setHiLo (s : State w) (x : HiLo) : State w := { s with hi := x.hi, lo := x.lo }

/-- What an instruction leaves; `none` when it raises an exception or divides by zero. -/
def Op.exec (translate : BitVec 64 → BitVec w) (s : State w) : Op → Option (State w)
  | nop => some s
  | instr i => (i.step translate s).toOption.map (·.state)
  | mulDiv op rs rt =>
    if op.dividesByZero (s.gpr rt) then none
    else some (s.setHiLo (op.eval (s.gpr rs) (s.gpr rt)))

/-- The register that an instruction writes. -/
def Instr.destination : Instr → Option Reg
  | lui rt _ | imm _ rt _ _ | load _ rt _ _ => some rt
  | mfhi rd | mflo rd | reg _ rd _ _ | shift _ rd _ _ | shiftVariable _ rd _ _ => some rd
  | mthi _ | mtlo _ | store .. | branch .. => none

def Op.destination : Op → Option Reg
  | instr i => i.destination
  | nop | mulDiv .. => none

/-- The state behind a call. HI, LO and the floating-point condition are neither passed nor returned:
each function has its own. -/
def State.behindCall (s s' : State w) : State w :=
  { s' with hi := s.hi, lo := s.lo, fpCondition := s.fpCondition }

/-- The state that a function starts in. -/
def State.atEntry (s : State w) : State w := { s with hi := 0, lo := 0, fpCondition := false }

theorem State.setReg_gpr_of_ne {s : State w} {r q : Reg} {x : BitVec 64} (h : q ≠ r) :
    (s.setReg r x).gpr q = s.gpr q := if_neg fun hq => h hq.1

/-- An instruction leaves the registers that it does not write. -/
theorem Instr.step_gpr {translate : BitVec 64 → BitVec w} {s : State w} {i : Instr}
    {o : Outcome w} {q : Reg} (hq : i.destination ≠ some q) (h : i.step translate s = .ok o) :
    o.state.gpr q = s.gpr q := by
  have hwrite : ∀ r x, some r ≠ some q → (s.setReg r x).gpr q = s.gpr q :=
    fun r x hr => State.setReg_gpr_of_ne fun heq => hr (congrArg some heq.symm)
  have hmap : ∀ {e : Except Exception (BitVec 64)} {r}, some r ≠ some q →
      e.map (fun x => (⟨s.setReg r x, false⟩ : Outcome w)) = .ok o → o.state.gpr q = s.gpr q := by
    intro e r hr heq
    cases e with
    | error e => cases heq
    | ok x =>
      obtain rfl := Except.ok.inj heq
      exact hwrite r x hr
  cases i with
  | lui | mfhi | mflo | shift | shiftVariable =>
    obtain rfl := Except.ok.inj h
    exact hwrite _ _ hq
  | mthi | mtlo | branch =>
    obtain rfl := Except.ok.inj h
    rfl
  | reg | imm => exact hmap hq h
  | load op rt base offset =>
    unfold step at h
    dsimp only at h
    split at h
    · cases h
    · obtain rfl := Except.ok.inj h
      exact hwrite _ _ hq
  | store op rt base offset =>
    unfold step at h
    dsimp only at h
    split at h
    · cases h
    · obtain rfl := Except.ok.inj h
      rfl

theorem Op.exec_gpr {translate : BitVec 64 → BitVec w} {s s' : State w} {o : Op} {q : Reg}
    (hq : o.destination ≠ some q) (h : o.exec translate s = some s') : s'.gpr q = s.gpr q := by
  cases o with
  | nop =>
    obtain rfl := Option.some.inj h
    rfl
  | instr i =>
    obtain ⟨outcome, hstep, rfl⟩ := Option.map_eq_some_iff.mp h
    cases hi : i.step translate s with
    | error e =>
      rw [hi] at hstep
      cases hstep
    | ok outcome' =>
      rw [hi] at hstep
      obtain rfl := Option.some.inj hstep
      exact Instr.step_gpr hq hi
  | mulDiv op rs rt =>
    simp only [exec] at h
    split at h
    · cases h
    · obtain rfl := Option.some.inj h
      rfl

/-! ### Programs -/

/-- What an instruction does with control. -/
inductive Flow
  | op (o : Op)
  /-- A conditional branch; a likely one annuls its slot when it is not taken. -/
  | branch (op : BranchOp) (rs rt : Reg) (link likely : Bool) (target : BitVec 32)
  | jump (link : Bool) (target : BitVec 32)
  | jumpReg (link : Option Reg) (rs : Reg)
  deriving DecidableEq, Repr

/-- The register of return addresses. -/
def ra : Reg := 31

/-- A program: its instructions by their addresses, the translation of the addresses of data, and
the value of a link register that holds an address. -/
structure Cpu (w : Nat) where
  code : BitVec 32 → Option Flow
  translate : BitVec 64 → BitVec w
  linkValue : BitVec 32 → BitVec 64

/-- How control goes on behind a step. -/
inductive Transfer
  /-- At the next instruction, or behind the slot. -/
  | next (pc : BitVec 32)
  | jump (pc : BitVec 32)
  /-- With the address behind the slot in `$ra`. -/
  | link (pc : BitVec 32)
  | register (rs : Reg) (pc : BitVec 32)
  /-- Through a register, with the address behind the slot in another one. -/
  | linkRegister (link rs : Reg) (pc : BitVec 32)
  deriving DecidableEq, Repr

/-- How control goes on behind a jump through a register. -/
def Transfer.ofRegister (rs : Reg) (pc : BitVec 32) : Option Reg → Transfer
  | none => register rs pc
  | some r => linkRegister r rs pc

namespace Cpu

variable (cpu : Cpu w)

/-- The write of the link register, at an address. -/
def link (pc : BitVec 32) (s : State w) : Option Reg → State w
  | none => s
  | some r => s.setReg r (cpu.linkValue (pc + 8))

theorem link_gpr {cpu : Cpu w} {pc : BitVec 32} {s : State w} {link : Option Reg} {q : Reg}
    (h : link ≠ some q) : (cpu.link pc s link).gpr q = s.gpr q := by
  cases link with
  | none => rfl
  | some r => exact State.setReg_gpr_of_ne fun heq => h (congrArg some heq.symm)

/-- **An instruction, with its delay slot.** The link is written before the slot, and a register is
read before both. -/
inductive Step : BitVec 32 → State w → Transfer → State w → Prop
  | op {pc : BitVec 32} {s s' : State w} {o : Op} (hcode : cpu.code pc = some (.op o))
      (hexec : o.exec cpu.translate s = some s') : Step pc s (.next (pc + 4)) s'
  | taken {pc target : BitVec 32} {s s' : State w} {op : BranchOp} {rs rt : Reg}
      {link likely : Bool} {o : Op}
      (hcode : cpu.code pc = some (.branch op rs rt link likely target))
      (hcond : op.eval s.fpCondition (s.gpr rs) (s.gpr rt) = true)
      (hslot : cpu.code (pc + 4) = some (.op o))
      (hexec : o.exec cpu.translate (cpu.link pc s (if link then some ra else none)) = some s') :
      Step pc s (if link then .link target else .jump target) s'
  | notTaken {pc target : BitVec 32} {s : State w} {op : BranchOp} {rs rt : Reg}
      {link likely : Bool} (hcode : cpu.code pc = some (.branch op rs rt link likely target))
      (hcond : op.eval s.fpCondition (s.gpr rs) (s.gpr rt) = false) :
      Step pc s (.next (if likely then pc + 8 else pc + 4))
        (cpu.link pc s (if link then some ra else none))
  | jump {pc target : BitVec 32} {s s' : State w} {link : Bool} {o : Op}
      (hcode : cpu.code pc = some (.jump link target)) (hslot : cpu.code (pc + 4) = some (.op o))
      (hexec : o.exec cpu.translate (cpu.link pc s (if link then some ra else none)) = some s') :
      Step pc s (if link then .link target else .jump target) s'
  | jumpReg {pc : BitVec 32} {s s' : State w} {link : Option Reg} {rs : Reg} {o : Op}
      (hcode : cpu.code pc = some (.jumpReg link rs)) (hslot : cpu.code (pc + 4) = some (.op o))
      (hexec : o.exec cpu.translate (cpu.link pc s link) = some s') :
      Step pc s (.ofRegister rs (word (s.gpr rs)) link) s'

section Inversion

variable {cpu} {pc pc' target : BitVec 32} {s s' : State w} {rs : Reg}

/-- Control goes on behind an instruction that does not transfer it, and behind a branch that is not
taken. -/
theorem Step.next_inv (h : cpu.Step pc s (.next pc') s') :
    (∃ o, cpu.code pc = some (.op o) ∧ o.exec cpu.translate s = some s' ∧ pc' = pc + 4) ∨
      ∃ op rs rt link likely target, cpu.code pc = some (.branch op rs rt link likely target) ∧
        op.eval s.fpCondition (s.gpr rs) (s.gpr rt) = false ∧
        pc' = (if likely then pc + 8 else pc + 4) ∧
        s' = cpu.link pc s (if link then some ra else none) := by
  generalize htransfer : Transfer.next pc' = transfer at h
  cases h with
  | op hcode hexec => exact .inl ⟨_, hcode, hexec, Transfer.next.inj htransfer⟩
  | notTaken hcode hcond =>
    exact .inr ⟨_, _, _, _, _, _, hcode, hcond, Transfer.next.inj htransfer, rfl⟩
  | taken | jump => split at htransfer <;> cases htransfer
  | @jumpReg _ _ link => cases link <;> cases htransfer

/-- Control goes to a known address behind the slot of a branch that is taken, or of a jump. -/
theorem Step.direct_inv (link : Bool)
    (h : cpu.Step pc s (if link then .link target else .jump target) s') :
    ∃ o, cpu.code (pc + 4) = some (.op o) ∧
      o.exec cpu.translate (cpu.link pc s (if link then some ra else none)) = some s' ∧
      ((∃ op rs rt likely, cpu.code pc = some (.branch op rs rt link likely target) ∧
          op.eval s.fpCondition (s.gpr rs) (s.gpr rt) = true) ∨
        cpu.code pc = some (.jump link target)) := by
  generalize htransfer : (if link then Transfer.link target else .jump target) = transfer at h
  have hsame : ∀ {link' : Bool} {target' : BitVec 32},
      (if link then Transfer.link target else .jump target) =
        (if link' then Transfer.link target' else .jump target') →
      link = link' ∧ target = target' := by
    intro link' target' heq
    cases link <;> cases link' <;> cases heq <;> exact ⟨rfl, rfl⟩
  cases h with
  | op | notTaken => split at htransfer <;> cases htransfer
  | taken hcode hcond hslot hexec =>
    obtain ⟨rfl, rfl⟩ := hsame htransfer
    exact ⟨_, hslot, hexec, .inl ⟨_, _, _, _, hcode, hcond⟩⟩
  | jump hcode hslot hexec =>
    obtain ⟨rfl, rfl⟩ := hsame htransfer
    exact ⟨_, hslot, hexec, .inr hcode⟩
  | @jumpReg _ _ link => cases link <;> split at htransfer <;> cases htransfer

/-- Control goes to the address that a register had. -/
theorem Step.register_inv {link : Option Reg} (h : cpu.Step pc s (.ofRegister rs pc' link) s') :
    ∃ o, cpu.code pc = some (.jumpReg link rs) ∧ cpu.code (pc + 4) = some (.op o) ∧
      o.exec cpu.translate (cpu.link pc s link) = some s' ∧ pc' = word (s.gpr rs) := by
  generalize htransfer : Transfer.ofRegister rs pc' link = transfer at h
  cases h with
  | op | notTaken => cases link <;> cases htransfer
  | taken | jump => cases link <;> split at htransfer <;> cases htransfer
  | @jumpReg _ _ link' _ _ hcode hslot hexec =>
    cases link <;> cases link' <;> cases htransfer <;> exact ⟨_, hcode, hslot, hexec, rfl⟩

end Inversion

/-! ### Bodies -/

section Body

variable (body labels : BitVec 32 → Prop) (calls : BitVec 32 → State w → State w → Prop)

/-- **A step of a body**: inside of it, to one of its labels through `$ra`, or over a call that comes
back through `$ra`. `calls` says what the functions leave that are entered at an address. -/
inductive BodyStep : BitVec 32 × State w → BitVec 32 × State w → Prop
  | next {pc pc' : BitVec 32} {s s' : State w} (h : cpu.Step pc s (.next pc') s') :
      BodyStep (pc, s) (pc', s')
  | jump {pc pc' : BitVec 32} {s s' : State w} (h : cpu.Step pc s (.jump pc') s')
      (hbody : body pc') : BodyStep (pc, s) (pc', s')
  | link {pc pc' : BitVec 32} {s s' : State w} (h : cpu.Step pc s (.link pc') s')
      (hbody : body pc') : BodyStep (pc, s) (pc', s')
  | register {pc pc' : BitVec 32} {s s' : State w} (h : cpu.Step pc s (.register ra pc') s')
      (hlabel : labels pc') : BodyStep (pc, s) (pc', s')
  | call {pc target : BitVec 32} {s s₁ s₂ : State w} (h : cpu.Step pc s (.link target) s₁)
      (hbody : ¬body target) (hreturn : word (s₁.gpr ra) = pc + 8) (hcall : calls target s₁ s₂) :
      BodyStep (pc, s) (pc + 8, s₁.behindCall s₂)
  | callRegister {pc target : BitVec 32} {rs : Reg} {s s₁ s₂ : State w}
      (h : cpu.Step pc s (.linkRegister ra rs target) s₁) (hreturn : word (s₁.gpr ra) = pc + 8)
      (hcall : calls target s₁ s₂) :
      BodyStep (pc, s) (pc + 8, s₁.behindCall s₂)

/-- The runs of a body. -/
abbrev BodyRun : BitVec 32 × State w → BitVec 32 × State w → Prop :=
  Relation.ReflTransGen (cpu.BodyStep body labels calls)

/-- How a body is left: by a jump out of it, or through a register. -/
inductive BodyExit : BitVec 32 × State w → BitVec 32 × State w → Prop
  | jump {pc pc' : BitVec 32} {s s' : State w} (h : cpu.Step pc s (.jump pc') s')
      (hbody : ¬body pc') : BodyExit (pc, s) (pc', s')
  | return_ {pc pc' : BitVec 32} {s s' : State w} (h : cpu.Step pc s (.register ra pc') s')
      (hlabel : ¬labels pc') : BodyExit (pc, s) (pc', s')
  | register {pc pc' : BitVec 32} {s s' : State w} {rs : Reg}
      (h : cpu.Step pc s (.register rs pc') s') (hrs : rs ≠ ra) : BodyExit (pc, s) (pc', s')
  | linkRegister {pc pc' : BitVec 32} {s s' : State w} {link rs : Reg}
      (h : cpu.Step pc s (.linkRegister link rs pc') s') (hlink : link ≠ ra) :
      BodyExit (pc, s) (pc', s')

end Body

end Cpu

end Mips
