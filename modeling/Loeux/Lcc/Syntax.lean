import Loeux.Lib.Bytes
/-!
# Syntax trees of the compiler

Types, symbols, expressions and statements as the parser builds them. Symbols stand in a
table and trees name them by their place in it. A pointer that the parser leaves null
is a tree of its own, `null`. The type of an expression follows from the types that the
parser copied from symbols, so it is computed and not stored.
-/

namespace Lcc

/-- Bytes of a name or a string. -/
abbrev Text := List UInt8

def ascii (s : String) : Text := s.toList.map fun c => UInt8.ofNat c.toNat

inductive BaseType
  | void | char | int | long
  deriving DecidableEq

structure Ty where
  base : BaseType
  ptr : Int
  deriving DecidableEq

def typeSize (t : Ty) : Nat :=
  if t.ptr ≠ 0 then 8
  else match t.base with
    | .char => 1
    | .int => 4
    | .long => 8
    | .void => 0

/-- A symbol. Names are compared as C strings, so they are kept as such. -/
structure Symbol where
  name : Text
  type : Ty := ⟨.void, 0⟩
  is_function : Bool := false
  defined : Bool := false
  variadic : Bool := false
  params : List Ty := []
  stack_off : Int := 0
  /-- 0 undefined, 1 text, 2 data, 3 bss. -/
  sec : Nat := 0
  value : Nat := 0
  size : Nat := 0

inductive UnOp
  | plus | minus | not | compl | deref | addr | inc | dec | postInc | postDec
  deriving DecidableEq

inductive BinOp
  | mul | div | rem | add | sub | shl | shr | lt | le | gt | ge | eq | ne | and | xor | or | land | lor
  deriving DecidableEq

inductive AssignOp
  | set | add | sub | mul | div | rem | and | or | xor | shl | shr
  deriving DecidableEq

inductive Expr
  | null
  | int (value : Nat)
  | char (value : Nat)
  | string (text : Text)
  | var (sym : Nat) (type : Ty)
  | unary (op : UnOp) (a : Expr)
  | binary (op : BinOp) (a b : Expr)
  | assign (op : AssignOp) (a b : Expr)
  | call (sym : Nat) (type : Ty) (args : List Expr)
  | index (a b : Expr)
  | cond (a b c : Expr)
  | sizeof (value : Nat)

def Expr.type : Expr → Ty
  | .null => ⟨.void, 0⟩
  | .int _ => ⟨.long, 0⟩
  | .char _ => ⟨.char, 0⟩
  | .string _ => ⟨.char, 1⟩
  | .var _ type => type
  | .unary .addr a => { a.type with ptr := a.type.ptr + 1 }
  | .unary .deref a => { a.type with ptr := a.type.ptr - 1 }
  | .unary _ a => a.type
  | .binary _ _ _ => ⟨.long, 0⟩
  | .assign _ a _ => a.type
  | .call _ type _ => type
  | .index a _ => { a.type with ptr := a.type.ptr - 1 }
  | .cond _ b _ => b.type
  | .sizeof _ => ⟨.long, 0⟩

inductive Stmt
  | null
  | block (body : List Stmt)
  | decl (sym : Nat) (e : Expr)
  | expr (e : Expr)
  | ifS (e : Expr) (s1 s2 : Stmt)
  | whileS (e : Expr) (s1 : Stmt)
  | forS (s1 : Stmt) (e e2 : Expr) (s2 : Stmt)
  | returnS (e : Expr)
  | breakS
  | continueS

structure FunctionDef where
  sym : Nat
  params : List Nat
  body : Stmt

end Lcc
