import N64Recomp.CLang.Integer

/-!
# C integer expressions

Expressions over a type of objects and a type of functions and function-like macros, with their
evaluation in an environment. Evaluation is partial: `none` is undefined behaviour, or an object
or a function that the environment gives no integer meaning.

## Main definitions

* `Expr`: integer expressions
* `Env`, `Expr.eval`: environments, and the value of an expression in one

## Main results

* `Expr.eval_lit`, .., `Expr.eval_call₃`: the value of each form of expression
-/

namespace CLang

/-- The binary operators. -/
inductive BinOp
  | add | sub | mul | div | mod | and | or | xor | shl | shr
  | lt | le | gt | ge | eq | ne
  deriving DecidableEq, Repr

/-- The unary operators. -/
inductive UnOp
  | neg | compl | lnot
  deriving DecidableEq, Repr

/-- Expressions over the objects `ν` and the functions `κ`. -/
inductive Expr (ν κ : Type)
  | lit (t : CType) (n : Int)
  | var (x : ν)
  | cast (t : CType) (e : Expr ν κ)
  | unary (op : UnOp) (e : Expr ν κ)
  | binary (op : BinOp) (a b : Expr ν κ)
  | cond (c a b : Expr ν κ)
  | call₁ (f : κ) (a : Expr ν κ)
  | call₂ (f : κ) (a b : Expr ν κ)
  | call₃ (f : κ) (a b c : Expr ν κ)
  deriving DecidableEq, Repr

/-- What the objects hold, and what the functions return. -/
structure Env (ν κ : Type) where
  var : ν → Option CVal
  call : κ → List CVal → Option CVal

def UnOp.apply : UnOp → CVal → Option CVal
  | neg, a => a.neg
  | compl, a => some a.compl
  | lnot, a => some a.lnot

def BinOp.apply : BinOp → CVal → CVal → Option CVal
  | add, a, b => a.add b
  | sub, a, b => a.sub b
  | mul, a, b => a.mul b
  | div, a, b => a.div b
  | mod, a, b => a.mod b
  | and, a, b => some (a.and b)
  | or, a, b => some (a.or b)
  | xor, a, b => some (a.xor b)
  | shl, a, b => a.shl b
  | shr, a, b => a.shr b
  | lt, a, b => some (a.lt b)
  | le, a, b => some (a.le b)
  | gt, a, b => some (b.lt a)
  | ge, a, b => some (b.le a)
  | eq, a, b => some (a.eq b)
  | ne, a, b => some (a.eq b).lnot

attribute [simp] UnOp.apply BinOp.apply

namespace Expr

variable {ν κ : Type}

/-- The value of an expression. Only the chosen arm of a conditional is evaluated. -/
def eval (env : Env ν κ) : Expr ν κ → Option CVal
  | lit t n => some (CVal.ofBits t (BitVec.ofInt 64 n))
  | var x => env.var x
  | cast t e => (e.eval env).map (CVal.convert t)
  | unary op e => (e.eval env).bind op.apply
  | binary op a b => (a.eval env).bind fun x => (b.eval env).bind fun y => op.apply x y
  | cond c a b => (c.eval env).bind fun x => if x.truthy then a.eval env else b.eval env
  | call₁ f a => (a.eval env).bind fun x => env.call f [x]
  | call₂ f a b => (a.eval env).bind fun x => (b.eval env).bind fun y => env.call f [x, y]
  | call₃ f a b c =>
    (a.eval env).bind fun x => (b.eval env).bind fun y => (c.eval env).bind fun z =>
      env.call f [x, y, z]

/-! ### The value of each form -/

section Forms

variable (env : Env ν κ) (e a b c : Expr ν κ)

@[simp] theorem eval_lit (t : CType) (n : Int) :
    (lit t n).eval env = some (CVal.ofBits t (BitVec.ofInt 64 n)) := rfl

@[simp] theorem eval_var (x : ν) : (var x).eval env = env.var x := rfl

@[simp] theorem eval_cast (t : CType) :
    (cast t e).eval env = (e.eval env).map (CVal.convert t) := rfl

@[simp] theorem eval_unary (op : UnOp) : (unary op e).eval env = (e.eval env).bind op.apply := rfl

@[simp] theorem eval_binary (op : BinOp) :
    (binary op a b).eval env =
      (a.eval env).bind fun x => (b.eval env).bind fun y => op.apply x y := rfl

@[simp] theorem eval_cond :
    (cond c a b).eval env =
      (c.eval env).bind fun x => if x.truthy then a.eval env else b.eval env := rfl

@[simp] theorem eval_call₁ (f : κ) :
    (call₁ f a).eval env = (a.eval env).bind fun x => env.call f [x] := rfl

@[simp] theorem eval_call₂ (f : κ) :
    (call₂ f a b).eval env =
      (a.eval env).bind fun x => (b.eval env).bind fun y => env.call f [x, y] := rfl

@[simp] theorem eval_call₃ (f : κ) :
    (call₃ f a b c).eval env =
      (a.eval env).bind fun x => (b.eval env).bind fun y => (c.eval env).bind fun z =>
        env.call f [x, y, z] := rfl

end Forms

end Expr

end CLang
