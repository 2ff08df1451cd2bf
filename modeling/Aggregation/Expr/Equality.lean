import Aggregation.Expr.Basic
import Aggregation.Value.Equality

/-! Two equalities of expressions. Neither looks at serials; they differ in how they compare constants. -/

namespace Aggregation.Expr

mutual

/-- Whether two expressions have the same types, the same payloads and children that agree, by a given
comparison of constants. -/
def agree (eq : Value → Value → Bool) : Expr → Expr → Bool
  | .constant i v, .constant j w => i.type == j.type && eq v w
  | .field i p, .field j q => i.type == j.type && p == q
  | .binary i o l r, .binary j p m s => i.type == j.type && o == p && agree eq l m && agree eq r s
  | .unary i o d, .unary j p e => i.type == j.type && o == p && agree eq d e
  | .document i fs, .document j gs => i.type == j.type && agreeEntries eq fs gs
  | .accumulator i o none, .accumulator j p none => i.type == j.type && o == p
  | .accumulator i o (some d), .accumulator j p (some e) => i.type == j.type && o == p && agree eq d e
  | .correlated i s d, .correlated j t e => i.type == j.type && s == t && agree eq d e
  | .source i c, .source j d => i.type == j.type && c == d
  | .filter i d p, .filter j e q => i.type == j.type && agree eq d e && agree eq p q
  | .group i d k s os, .group j e l t ps =>
    i.type == j.type && s == t && agree eq d e && agree eq k l && agreeEntries eq os ps
  | .project i d p, .project j e q => i.type == j.type && agree eq d e && agree eq p q
  | .sort i d ks, .sort j e ls => i.type == j.type && ks == ls && agree eq d e
  | .skip i d m, .skip j e n => i.type == j.type && m == n && agree eq d e
  | .limit i d m, .limit j e n => i.type == j.type && m == n && agree eq d e
  | .extension i f as, .extension j g bs => i.type == j.type && f == g && agreeArgs eq as bs
  | _, _ => false

def agreeEntries (eq : Value → Value → Bool) : List (String × Expr) → List (String × Expr) → Bool
  | [], [] => true
  | (m, d) :: rest, (n, e) :: rest' => m == n && agree eq d e && agreeEntries eq rest rest'
  | _, _ => false

def agreeArgs (eq : Value → Value → Bool) : List Expr → List Expr → Bool
  | [], [] => true
  | d :: rest, e :: rest' => agree eq d e && agreeArgs eq rest rest'
  | _, _ => false

end

/-- Equality under which every constant is the same as itself. -/
def sameStructure (d e : Expr) : Bool := agree Value.same d e

/-- Equality under which doubles in constants compare as numbers. -/
def numericEq (d e : Expr) : Bool := agree Value.numericEq d e

end Aggregation.Expr
