import Mathlib.Data.List.Basic
import SymbolicAlgebra.Reader.Parse

/-! # The grammar

Which rows of tokens spell which expressions, without any parsing. `Derives p ts x` says that the
row `ts` is a phrase of the kind `p` that stands for `x`:

* a sum is a row of products with signs between them, and a minus in front if the first one is
  negated;
* a product is a row of quotients with `*` between them, or nothing, exactly between a closing and
  an opening bracket;
* quotients and powers group to the right;
* right after `*`, `/` and `^` a power may have one minus in front;
* an atom is a number, a name with what it is applied to, or a sum in brackets.

A minus stands for a factor of minus one (`Expr.neg`). -/

namespace SymbolicAlgebra.Grammar

/-- The kinds of phrases. -/
inductive Phrase where
  | sum
  /-- The rest of a sum after its first product: signs and products. -/
  | terms
  | product
  /-- The rest of a product after its first quotient. It says whether the token before is a closing
  bracket. -/
  | factors (closed : Bool)
  /-- A quotient, which may be signed right after an operator other than a plus or minus. -/
  | quotient (signed : Bool)
  /-- A power, which may be signed in the same places. -/
  | power (signed : Bool)
  | atom
  /-- What follows a name in order to complete it to an atom. -/
  | named (name : List Char)
  /-- What follows the name of a function, as its operand. -/
  | application (f : Callable)
  /-- One or more sums with commas between them. -/
  | args

/-- What a phrase stands for: an expression, or several ones. -/
@[reducible] def Phrase.Meaning (α : Type) : Phrase → Type
  | terms => List (Expr α)
  | factors _ => List (Expr α)
  | args => List (Expr α)
  | _ => Expr α

/-- Whether the last token is a closing bracket. -/
def endsClosed (ts : List Token) : Bool := ts.getLast?.map Token.kind == some .closing

/-- Whether the first token is an opening bracket. -/
def startsOpen (ts : List Token) : Bool := ts.head?.map Token.kind == some .opening

variable {α : Type} [Scalar α] [Numeral α]

/-- **The grammar**: the tokens are a phrase with this meaning. -/
inductive Derives : (p : Phrase) → List Token → p.Meaning α → Prop where
  /-- The form `product ...`. -/
  | sum {ts us : List Token} {e : Expr α} {es : List (Expr α)} (h : Derives .product ts e)
    (hs : Derives .terms us es) : Derives .sum (ts ++ us) (Read.combine Expr.sumOf (e :: es))
  /-- The form `- product ...`. -/
  | negatedSum {t : Token} {ts us : List Token} {e : Expr α} {es : List (Expr α)}
    (ht : t.kind = .minus) (h : Derives .product ts e) (hs : Derives .terms us es) :
    Derives .sum (t :: ts ++ us) (Read.combine Expr.sumOf (e.neg :: es))
  | noTerms : Derives .terms [] []
  /-- The form `+ product ...`. -/
  | plus {t : Token} {ts us : List Token} {e : Expr α} {es : List (Expr α)} (ht : t.kind = .plus)
    (h : Derives .product ts e) (hs : Derives .terms us es) :
    Derives .terms (t :: ts ++ us) (e :: es)
  /-- The form `- product ...`. -/
  | minus {t : Token} {ts us : List Token} {e : Expr α} {es : List (Expr α)} (ht : t.kind = .minus)
    (h : Derives .product ts e) (hs : Derives .terms us es) :
    Derives .terms (t :: ts ++ us) (e.neg :: es)
  /-- The form `quotient ...`. -/
  | product {ts us : List Token} {e : Expr α} {es : List (Expr α)}
    (h : Derives (.quotient false) ts e) (hs : Derives (.factors (endsClosed ts)) us es) :
    Derives .product (ts ++ us) (Read.combine Expr.productOf (e :: es))
  | noFactors {closed : Bool} : Derives (.factors closed) [] []
  /-- The form `* quotient ...`. -/
  | times {closed : Bool} {t : Token} {ts us : List Token} {e : Expr α} {es : List (Expr α)}
    (ht : t.kind = .times) (h : Derives (.quotient true) ts e)
    (hs : Derives (.factors (endsClosed ts)) us es) :
    Derives (.factors closed) (t :: ts ++ us) (e :: es)
  /-- The form `quotient ...`, between two brackets. -/
  | beside {ts us : List Token} {e : Expr α} {es : List (Expr α)} (ht : startsOpen ts = true)
    (h : Derives (.quotient false) ts e) (hs : Derives (.factors (endsClosed ts)) us es) :
    Derives (.factors true) (ts ++ us) (e :: es)
  /-- The form `power`. -/
  | quotient {signed : Bool} {ts : List Token} {e : Expr α} (h : Derives (.power signed) ts e) :
    Derives (.quotient signed) ts e
  /-- The form `power / quotient`. -/
  | fraction {signed : Bool} {t : Token} {ts us : List Token} {a b : Expr α}
    (ha : Derives (.power signed) ts a) (ht : t.kind = .slash)
    (hb : Derives (.quotient true) us b) :
    Derives (.quotient signed) (ts ++ t :: us) (Expr.fraction a b)
  /-- The form `atom`. -/
  | power {signed : Bool} {ts : List Token} {e : Expr α} (h : Derives .atom ts e) :
    Derives (.power signed) ts e
  /-- The form `atom ^ power`. -/
  | raised {signed : Bool} {t : Token} {ts us : List Token} {a b : Expr α}
    (ha : Derives .atom ts a) (ht : t.kind = .caret) (hb : Derives (.power true) us b) :
    Derives (.power signed) (ts ++ t :: us) (Expr.power a b)
  /-- The form `- power`. -/
  | negated {t : Token} {ts : List Token} {e : Expr α} (ht : t.kind = .minus)
    (h : Derives (.power false) ts e) : Derives (.power true) (t :: ts) e.neg
  | number {t : Token} {x : α} (ht : t.kind = .number) (hx : Numeral.read t.lexeme = some x) :
    Derives .atom [t] (Expr.const x)
  | name {t : Token} {ts : List Token} {e : Expr α} (ht : t.kind = .name)
    (h : Derives (.named t.lexeme) ts e) : Derives .atom (t :: ts) e
  /-- The form `( sum )`. -/
  | group {t u : Token} {ts : List Token} {e : Expr α} (ht : t.kind = .opening)
    (h : Derives .sum ts e) (hu : u.kind = .closing) : Derives .atom (t :: ts ++ [u]) e
  | constant {n : List Char} {c : Constant} (hc : Constant.ofName? n = some c) :
    Derives (.named n) [] (Expr.const c.value)
  /-- A letter that is not the name of a constant. -/
  | letter {c : Char} (hc : Constant.ofName? [c] = none) : Derives (.named [c]) [] (Expr.var c)
  | function {f : Callable} {ts : List Token} {e : Expr α} (h : Derives (.application f) ts e) :
    Derives (.named f.name.toList) ts e
  /-- The name of a function in front of another name. -/
  | glued {f : Callable} {n : List Char} {ts : List Token} {a e : Expr α}
    (h : Derives (.named n) ts a) (he : f.applied? [a] = some e) :
    Derives (.named (f.name.toList ++ n)) ts e
  /-- The form `f(sum, ..., sum)`. -/
  | call {f : Callable} {t u : Token} {ts : List Token} {as : List (Expr α)} {e : Expr α}
    (ht : t.kind = .opening) (has : Derives .args ts as) (hu : u.kind = .closing)
    (he : f.applied? as = some e) : Derives (.application f) (t :: ts ++ [u]) e
  /-- The form `f atom`. -/
  | apply {f : Callable} {ts : List Token} {a e : Expr α} (ha : Derives .atom ts a)
    (he : f.applied? [a] = some e) : Derives (.application f) ts e
  /-- The form `log_atom_atom`. -/
  | log {t u : Token} {ts us : List Token} {a b : Expr α} (ht : t.kind = .underscore)
    (hb : Derives .atom ts b) (hu : u.kind = .underscore) (ha : Derives .atom us a) :
    Derives (.application .log) (t :: ts ++ u :: us) (Expr.log b a)
  /-- The form `log_atom(sum)`. -/
  | logGroup {t u v : Token} {ts us : List Token} {a b : Expr α} (ht : t.kind = .underscore)
    (hb : Derives .atom ts b) (hu : u.kind = .opening) (ha : Derives .sum us a)
    (hv : v.kind = .closing) :
    Derives (.application .log) (t :: ts ++ u :: us ++ [v]) (Expr.log b a)
  /-- The form `sum`. -/
  | arg {ts : List Token} {e : Expr α} (h : Derives .sum ts e) : Derives .args ts [e]
  /-- The form `sum, ...`. -/
  | args {t : Token} {ts us : List Token} {e : Expr α} {es : List (Expr α)}
    (h : Derives .sum ts e) (ht : t.kind = .comma) (hs : Derives .args us es) :
    Derives .args (ts ++ t :: us) (e :: es)

end SymbolicAlgebra.Grammar
