import DeskCalc.Program.Basic

/-!
# The grammar as a relation

`IsProgram ts p` says that the tokens `ts`, the end token last, are a sentence of the language and
that `p` is its tree.  The relation knows nothing of reading: it says which tokens make up which
tree, rule by rule.

```text
program  →  stmt* eof
stmt     →  type id ;  |  type id = expr ;  |  id = expr ;  |  id op= expr ;  |  print id ;
expr     →  term (+ term | - term)*
term     →  operand (* operand | / operand)*
operand  →  int  |  float  |  id
```
-/

namespace DeskCalc

namespace Derivation

/-- The identifier of a token. -/
def identOf (t : Token) : Ident := ⟨t.text, t.row⟩

/-- An operand is a literal or a name. -/
inductive IsOperand : List Token → Expr → Prop
  | const {t : Token} {type : NumType} (h : NumType.ofLiteral? t.kind = some type) :
      IsOperand [t] (.const t.text type)
  | deref {t : Token} (h : t.kind = .id) : IsOperand [t] (.deref (identOf t))

/-- Operators of a level with an operand after each. -/
inductive IsTail (level : Level) (operand : List Token → Expr → Prop) :
    List Token → List (Operator × Expr) → Prop
  | nil : IsTail level operand [] []
  | cons {t : Token} {op : Operator} {ts us : List Token} {e : Expr}
      {pairs : List (Operator × Expr)}
      (hop : Operator.ofToken? t.kind = some op) (hlevel : op.level = level)
      (he : operand ts e) (hrest : IsTail level operand us pairs) :
      IsTail level operand (t :: ts ++ us) ((op, e) :: pairs)

/-- A first operand with operators and operands folded onto it from the left. -/
def foldPairs (left : Expr) (pairs : List (Operator × Expr)) : Expr :=
  pairs.foldl (fun l p => .binary p.1 l p.2) left

/-- A chain of operators of a level. -/
inductive IsChain (level : Level) (operand : List Token → Expr → Prop) :
    List Token → Expr → Prop
  | mk {ts us : List Token} {e : Expr} {pairs : List (Operator × Expr)}
      (he : operand ts e) (hrest : IsTail level operand us pairs) :
      IsChain level operand (ts ++ us) (foldPairs e pairs)

/-- A term is a chain of products and quotients of operands. -/
def IsTerm : List Token → Expr → Prop := IsChain .product IsOperand

/-- An expression is a chain of sums and differences of terms. -/
def IsExpr : List Token → Expr → Prop := IsChain .sum IsTerm

/-- The forms of a statement. -/
inductive IsStmt : List Token → Stmt → Prop
  | decl {t id semi : Token} {type : NumType} (ht : NumType.ofKeyword? t.kind = some type)
      (hid : id.kind = .id) (hsemi : semi.kind = .semi) :
      IsStmt [t, id, semi] (.decl (identOf id) type none)
  | declInit {t id eq semi : Token} {type : NumType} {ts : List Token} {e : Expr}
      (ht : NumType.ofKeyword? t.kind = some type) (hid : id.kind = .id)
      (heq : eq.kind = .assign) (he : IsExpr ts e) (hsemi : semi.kind = .semi) :
      IsStmt (t :: id :: eq :: ts ++ [semi]) (.decl (identOf id) type (some e))
  | assign {id eq semi : Token} {ts : List Token} {e : Expr} (hid : id.kind = .id)
      (heq : eq.kind = .assign) (he : IsExpr ts e) (hsemi : semi.kind = .semi) :
      IsStmt (id :: eq :: ts ++ [semi]) (.assign (identOf id) e)
  | compound {id eq semi : Token} {op : Operator} {ts : List Token} {e : Expr}
      (hid : id.kind = .id) (heq : eq.kind = .opAssign)
      (hop : Operator.ofCompound? eq.text = some op) (he : IsExpr ts e)
      (hsemi : semi.kind = .semi) :
      IsStmt (id :: eq :: ts ++ [semi]) (.assign (identOf id) (.binary op (.deref (identOf id)) e))
  | print {t id semi : Token} (ht : t.kind = .print) (hid : id.kind = .id)
      (hsemi : semi.kind = .semi) : IsStmt [t, id, semi] (.print (identOf id))

/-- A program is a list of statements and the end. -/
inductive IsProgram : List Token → Program → Prop
  | nil {t : Token} (ht : t.kind = .eof) : IsProgram [t] []
  | cons {ts us : List Token} {s : Stmt} {p : Program} (hs : IsStmt ts s)
      (hp : IsProgram us p) : IsProgram (ts ++ us) (s :: p)

end Derivation

end DeskCalc
