import YbeSms.Source.Cardinality
import YbeSms.Library.Numbering
import YbeSms.Abstract.CycleSet

/-!
# The generated formula

Source: ybe-sms/src/clause.cpp:5-46, 84-109, 247-344 and main.cpp:258-271.
The two overloads of `encodeEntries` and `YBEClausesNew` (with a diagonal and
without) are two definitions each. `nextFree` and the literal tables, which the
source changes in place, are returned. `encodeOrder` and the unused second
numbering of the ordered literals are not modelled: nothing calls them.
-/

namespace YbeSms.Source

open YbeSms.Library

variable {n : Nat}

/-- Number the entries a guard selects, in the order of the loops, from all-zero tables. -/
def numberEntries (keep : Entry n → Bool) (nextFree : Int) : MatrixLits n × Int :=
  let r := number keep (entries n) (fun _ => 0) nextFree
  (fun i j k => r.1 (i, j, k), r.2)

/-- Which entries the diagonal overload of `encodeEntries` numbers. -/
def entryKept (cfg : Config) (d : Fin n → Fin n) (e : Entry n) : Bool :=
  (cfg.smallerEncoding && e.1 != e.2.1 && e.2.2 != d e.1) || !cfg.smallerEncoding

/-- The constraints of `encodeEntries` with a diagonal. -/
def entryConstraints (cfg : Config) (d : Fin n → Fin n) (lits : MatrixLits n) : Emitter :=
  (Emitter.forEach (cells n) fun c =>
    if c.1 ≠ c.2 then exactlyOne cfg ((List.finRange n).map (lits c.1 c.2))
    else .clauses []).andThen <|
  (Emitter.forEach (cells n) fun c =>
    if d c.1 = c.2 then .clauses []
    else exactlyOne cfg (((List.finRange n).filter (fun j => j ≠ c.1)).map
      fun j => lits c.1 j c.2)).andThen <|
  if !cfg.smallerEncoding then
    Emitter.forEach (List.finRange n) fun i =>
      (Emitter.clauses [[lits i i (d i)]]).andThen
        (exactlyOne cfg ((List.finRange n).map fun k => lits k k i))
  else .clauses []

/-- The constraints of `encodeEntries` without a diagonal. -/
def entryConstraintsNoDiag (cfg : Config) (lits : MatrixLits n) : Emitter :=
  (Emitter.forEach (cells n) fun c =>
    exactlyOne cfg ((List.finRange n).map (lits c.1 c.2))).andThen <|
  (Emitter.forEach (cells n) fun c =>
    exactlyOne cfg ((List.finRange n).map fun j => lits c.1 j c.2)).andThen <|
  Emitter.forEach (List.finRange n) fun i =>
    exactlyOne cfg ((List.finRange n).map fun k => lits k k i)

/-- The index pairs of `for i, for j > i`, each with every `k`. -/
def triples (n : Nat) : List ((Fin n × Fin n) × Fin n) :=
  (cells n).filter (fun c => c.1 < c.2) ×ˢ List.finRange n

/-- Index of a result variable: `ybe_lits[i][j][k][b]`. -/
abbrev YbeIndex (n : Nat) := ((Fin n × Fin n) × Fin n) × Fin n

/-- The negated premises `M[i][j] = x`, `M[i][k] = y`, `M[x][y] = b`; the smaller encoding
drops those that the diagonal settles. -/
def ybePremise (small : Bool) (lits : MatrixLits n) (i j k x y b : Fin n) : Clause :=
  [-lits i j x] ++ (if !small || i != k then [-lits i k y] else []) ++
    (if !small || x != y then [-lits x y b] else [])

/-- The values that can occur together with the diagonal `d`. -/
def ybeGuard (d : Fin n → Fin n) (i k x y b : Fin n) : Bool :=
  x != d i && ((i != k && d i != y) || (i == k && d i == y)) &&
    ((x != y && d x != b) || (x == y && d x == b))

/-- The implications of `YBEClausesNew` with a diagonal: result variable and premises. -/
def ybeImplications (cfg : Config) (lits : MatrixLits n) (d : Fin n → Fin n) :
    List (YbeIndex n × Clause) :=
  (triples n ×ˢ (cells n ×ˢ List.finRange n)).flatMap fun t =>
    let i := t.1.1.1
    let j := t.1.1.2
    let k := t.1.2
    let x := t.2.1.1
    let y := t.2.1.2
    let b := t.2.2
    (if !cfg.smallerEncoding || ybeGuard d i k x y b then
      [((t.1, b), ybePremise cfg.smallerEncoding lits i j k x y b)] else []) ++
    (if !cfg.smallerEncoding || ybeGuard d j k x y b then
      [((t.1, b), ybePremise cfg.smallerEncoding lits j i k x y b)] else [])

/-- `YBEClausesNew` with a diagonal: implications first, result variables drawn lazily. -/
def ybeClausesNew (cfg : Config) (lits : MatrixLits n) (d : Fin n → Fin n) : Emitter :=
  fun nextFree =>
    let r := emitLazy (ybeImplications cfg lits d) (fun _ => 0) nextFree
    let eo := Emitter.forEach (triples n)
      (fun t => exactlyOne cfg (((List.finRange n).map fun b => r.1.1 (t, b)).filter (· ≠ 0)))
      r.1.2
    (r.2 ++ eo.1, eo.2)

/-- The result variables of `YBEClausesNew` without a diagonal, with their constraints. -/
def ybeResults (cfg : Config) : List ((Fin n × Fin n) × Fin n) → (YbeIndex n → Int) → Int →
    (YbeIndex n → Int) × Cnf × Int
  | [], ybeLits, nextFree => (ybeLits, [], nextFree)
  | t :: rest, ybeLits, nextFree =>
    let block := number (fun _ => true) ((List.finRange n).map fun b => (t, b)) ybeLits nextFree
    let eo := exactlyOne cfg ((List.finRange n).map fun b => block.1 (t, b)) block.2
    let r := ybeResults cfg rest block.1 eo.2
    (r.1, eo.1 ++ r.2.1, r.2.2)

/-- `YBEClausesNew` without a diagonal. -/
def ybeClausesNewNoDiag (cfg : Config) (lits : MatrixLits n) : Emitter := fun nextFree =>
  let r := ybeResults cfg (triples n) (fun _ => 0) nextFree
  (r.2.1 ++ (triples n ×ˢ (cells n ×ˢ List.finRange n)).flatMap fun t =>
    let i := t.1.1.1
    let j := t.1.1.2
    let k := t.1.2
    let x := t.2.1.1
    let y := t.2.1.2
    let b := t.2.2
    [[-lits i j x, -lits i k y, -lits x y b, r.1 (t.1, b)],
      [-lits j i x, -lits j k y, -lits x y b, r.1 (t.1, b)]], r.2.2)

/-- `fixFirstRows`: unit clauses that copy `firstRow` into the first `numToFix` rows. -/
def fixFirstRows (cfg : Config) (lits : MatrixLits n) (firstRow : Fin n → Fin n) (numToFix : Nat) :
    Cnf :=
  (cells n).flatMap fun c =>
    if c.1.val < numToFix then
      if cfg.diagPart && c.2 == c.1 then [] else [[lits c.1 c.2 (firstRow c.2)]]
    else []

/-- A formula together with its entry variables. -/
structure Encoding (n : Nat) where
  lits : MatrixLits n
  cnf : Cnf
  nextFree : Int

/-- `encodeEntries` then `YBEClausesNew` for one diagonal, from `nextFree = 1`. -/
def encodeDiagonal (cfg : Config) (d : Fin n → Fin n) : Encoding n :=
  let r := numberEntries (entryKept cfg d) 1
  let f := ((entryConstraints cfg d r.1).andThen (ybeClausesNew cfg r.1 d)) r.2
  ⟨r.1, f.1, f.2⟩

/-- The mode without a diagonal: all entries are numbered before `encodeEntries`. -/
def encodeNoDiag (cfg : Config) (n : Nat) : Encoding n :=
  let r := numberEntries (fun _ => true) 1
  let f := ((entryConstraintsNoDiag cfg r.1).andThen (ybeClausesNewNoDiag cfg r.1)) r.2
  ⟨r.1, f.1, f.2⟩

end YbeSms.Source
