import YbeSms.Source.CyclePerm
import YbeSms.Source.Global

/-!
# Partially chosen permutations

Source: ybe-sms/src/domains.cpp:74-345 (`bitdomains2_t`), useful.cpp:279-542
(`pperm_plain`, `pperm_bit`), minCheck_V2.cpp:95-151. Both representations of
`pperm_common` are one type with two constructors. A value that the source may
pass as `-1` is an `Option`. In a `bitdomains2_t` the value `-1` addresses the
counter of the chunk, which the model keeps: chunk cells are `firstel`, `numtrue`
and one cell for each value.
-/

namespace YbeSms.Source

variable {n : Nat}

/-- An `int` that is a value or `-1`. -/
def toInt : Option (Fin n) → Int
  | some v => v.val
  | none => -1

/-- The value an `int` stands for, if it is one. -/
def ofInt (i : Int) : Option (Fin n) :=
  if h : 0 ≤ i ∧ i.toNat < n then some ⟨i.toNat, h.2⟩ else none

theorem ofInt_val (v : Fin n) : ofInt (v.val : Int) = some v := by
  unfold ofInt
  rw [dif_pos ⟨Int.natCast_nonneg _, v.isLt⟩]
  rfl

/-- `bitdomains2_t`: one chunk of `problem_size + 2` cells for each index. -/
structure BitDomains2 (n : Nat) where
  dom : Fin n → Fin (n + 2) → Int

/-- The chunk cell of a value; `-1` falls on the cell of `numtrue`. -/
def slot : Option (Fin n) → Fin (n + 2)
  | none => 1
  | some v => v.natAdd 2 |>.cast (Nat.add_comm 2 n)

namespace BitDomains2

/-- `bitdomains2_t(false)`. -/
def empty : BitDomains2 n := ⟨fun _ s => if s = 0 then -1 else 0⟩

def firstel (b : BitDomains2 n) (e : Fin n) : Int := b.dom e 0

def numtrue (b : BitDomains2 n) (e : Fin n) : Int := b.dom e 1

/-- `get(idx, e)`. -/
def get (b : BitDomains2 n) (e : Fin n) (v : Option (Fin n)) : Bool :=
  if b.numtrue e ≠ 0 then b.dom e (slot v) == 1 else false

/-- Write one cell. -/
def write (b : BitDomains2 n) (e : Fin n) (s : Fin (n + 2)) (x : Int) : BitDomains2 n :=
  ⟨Function.update b.dom e (Function.update (b.dom e) s x)⟩

/-- `set(e, n)`. -/
def set (b : BitDomains2 n) (e : Fin n) (v : Option (Fin n)) : BitDomains2 n :=
  if b.dom e (slot v) = 1 then b
  else
    let b := b.write e (slot v) 1
    let b := b.write e 1 (b.numtrue e + 1)
    if b.firstel e = -1 ∨ toInt v < b.firstel e then b.write e 0 (toInt v) else b

/-- `reset(e, n)`. -/
def reset (b : BitDomains2 n) (e : Fin n) (v : Option (Fin n)) : BitDomains2 n :=
  if b.dom e (slot v) = 0 then b
  else
    let b := b.write e (slot v) 0
    let b := b.write e 1 (b.numtrue e - 1)
    if toInt v = b.firstel e then
      match (List.finRange n).find? fun i => toInt v < i.val && b.dom e (slot (some i)) == 1 with
      | some i => b.write e 0 i.val
      | none => b.write e 0 (-1)
    else b

/-- `reset(e)`. -/
def resetRow (b : BitDomains2 n) (e : Fin n) : BitDomains2 n :=
  ⟨Function.update b.dom e fun s => if s = 0 then -1 else 0⟩

/-- `none(e)`. -/
def none (b : BitDomains2 n) (e : Fin n) : Bool := b.numtrue e == 0

/-- `options(e)`. -/
def options (b : BitDomains2 n) (e : Fin n) : List (Fin n) :=
  (List.finRange n).filter fun j => b.dom e (slot (some j)) == 1

end BitDomains2

/-- `pperm_common` with its two representations. -/
inductive PPerm (n : Nat) where
  | plain (element : Fin n → Fin n) (part : Fin n → Bool)
  | bit (info : BitDomains2 n)

/-- `pperm_plain(perm)`. -/
def ppermPlain (perm : Fin n → Fin n) : PPerm n :=
  let r := cycleToParts (permToCyclePerm perm)
  .plain (fun i => r.1.getD i i) (fun i => r.2.getD i false)

/-- `pperm_bit(perm)`: every point starts with the points of its class. -/
def ppermBit (perm : Fin n → Fin n) : PPerm n :=
  .bit ((cycleClasses (permToCyclePerm perm)).foldl
    (fun info b => ⟨fun j =>
      if b.dom j then
        fun s =>
          if s = 0 then b.firstel else if s = 1 then b.numTrue
          else if b.options.any fun v => slot (some v) == s then 1 else 0
      else info.dom j⟩)
    .empty)

/-- The positions after `i` up to the next mark: the loops of `options` and `invOptions`. -/
def cellFrom (part : Fin n → Bool) (p i : Fin n) : List (Fin n) :=
  ((List.finRange n).filter fun j => i ≤ j).takeWhile fun j => !(j != p && part j)

/-- The last marked position at or before `i`, position 0 if there is none. -/
def cellStart (part : Fin n → Bool) (i : Fin n) : Fin n :=
  (List.finRange n).foldl (fun p j => if j ≤ i && part j then j else p) ⟨0, i.pos⟩

/-- Whether position `i` ends at a mark or at the end of the vector. -/
def cellEnds (part : Fin n → Bool) (i : Fin n) : Bool :=
  if h : i.val + 1 < n then part ⟨i.val + 1, h⟩ else true

/-- The positions of the cell of `i`, in the order of the loops. -/
def cellPositions (part : Fin n → Bool) (i : Fin n) : List (Fin n) :=
  let p := cellStart part i
  if p = i ∧ cellEnds part p then [i]
  else cellFrom part p i ++ (List.finRange n).filter fun j => p ≤ j && j < i

/-- The position of a value, `find(...) - begin`. -/
def position (element : Fin n → Fin n) (v : Fin n) : Option (Fin n) :=
  (List.finRange n).find? fun i => element i == v

namespace PPerm

/-- `fixed`. -/
def fixed : PPerm n → Fin n → Bool
  | .plain _ part, el => part el && cellEnds part el
  | .bit info, el => info.numtrue el == 1

/-- `fullDefined`. -/
def fullDefined (perm : PPerm n) : Bool := (List.finRange n).all perm.fixed

/-- `permOf`. -/
def permOf (perm : PPerm n) (el : Fin n) : Option (Fin n) :=
  if perm.fixed el then
    match perm with
    | .plain element _ => some (element el)
    | .bit info => ofInt (info.firstel el)
  else none

/-- `invPermOf`. -/
def invPermOf (perm : PPerm n) (v : Fin n) : Option (Fin n) :=
  match perm with
  | .plain element part => (position element v).filter (PPerm.plain element part).fixed
  | .bit info => (List.finRange n).find? fun i => (PPerm.bit info).permOf i == some v

/-- `options`. -/
def options : PPerm n → Fin n → List (Fin n)
  | .plain element part, el => (cellPositions part el).map element
  | .bit info, el => info.options el

/-- `invOptions`. -/
def invOptions : PPerm n → Fin n → List (Fin n)
  | .plain element part, v =>
    match position element v with
    | some i => cellPositions part i
    | none => []
  | .bit info, v => (List.finRange n).filter fun i => info.get i (some v)

/-- `pperm_plain::fix`; the value `-1` occurs nowhere, so nothing changes. -/
def fixPlain (element : Fin n → Fin n) (part : Fin n → Bool) (el : Fin n) :
    Option (Fin n) → PPerm n × Bool
  | none => (.plain element part, false)
  | some img =>
    let perm := PPerm.plain element part
    if perm.fixed el || (perm.invPermOf img).isSome then (perm, element el == img)
    else
      let element :=
        match position element img with
        | some swp => fun i => if i = el then element swp else if i = swp then element el else element i
        | none => element
      (.plain element fun i => i.val == el.val + 1 || part i, true)

/-- The loop of `pperm_bit::fix`: it ends at the first index left without values. -/
def fixRows (el : Fin n) (img : Option (Fin n)) : List (Fin n) → BitDomains2 n → BitDomains2 n × Bool
  | [], info => (info, true)
  | i :: rest, info =>
    if i = el then fixRows el img rest ((info.resetRow i).set i img)
    else
      let info := info.reset i img
      if info.none i then (info, false) else fixRows el img rest info

/-- `fix`: choose the image of a point; the flag says whether that was possible. -/
def fix : PPerm n → Fin n → Option (Fin n) → PPerm n × Bool
  | .plain element part, el, img => fixPlain element part el img
  | .bit info, el, img =>
    if info.get el img then
      let r := fixRows el img (List.finRange n) info
      (.bit r.1, r.2)
    else (.bit info, false)

/-- `getPerm`, once every point is fixed. -/
def getPerm (perm : PPerm n) : Option (Fin n → Fin n) :=
  match perm with
  | .plain element _ => some element
  | .bit _ =>
    if h : ∀ i, (perm.permOf i).isSome then some fun i => (perm.permOf i).get (h i) else none

end PPerm

/-- What a `MinCheck_V2` object keeps from its constructor; `before` is what its `cyclePerm_t`
reads in front of its vector. -/
structure MinCheck (n : Nat) where
  cfg : Config
  diag : Fin n → Fin n
  cycsetLits : MatrixLits n
  before : Bool

namespace MinCheck

/-- `diagIsId`. -/
def diagIsId (m : MinCheck n) : Bool := !m.cfg.diagPart || (List.finRange n).all fun i => m.diag i == i

/-- `initialPart`. -/
def initialPart (m : MinCheck n) : PPerm n :=
  if m.cfg.useBit && m.cfg.diagPart then ppermBit m.diag
  else if m.cfg.diagPart then ppermPlain m.diag
  else ppermPlain id

/-- Fix point after point to image after image until one is refused. -/
def fixAlong (perm : PPerm n) : List (Fin n × Option (Fin n)) → PPerm n × Bool
  | [] => (perm, true)
  | (el, img) :: rest =>
    let r := perm.fix el img
    if r.2 then fixAlong r.1 rest else (r.1, false)

/-- `propagateDecision`: the cycle of a fixed point goes to the cycle of its image. -/
def propagateDecision (m : MinCheck n) (perm : PPerm n) (r : Fin n) : PPerm n × Bool :=
  let dec := perm.permOf r
  let part := cyclePart m.diag
  let cycleOg := cycle part r
  let size := cycleOg.length
  if dec = some r then fixAlong perm (cycleOg.tail.map fun i => (i, some i))
  else if (cycleOg.map some).contains dec then
    let dist := (cycleOg.map some).idxOf dec
    fixAlong perm ((List.range' 1 (size - 1)).filterMap fun i =>
      cycleOg[i]?.map fun el => (el, cycleOg[(i + dist) % size]?))
  else
    let cyclePerm := cycleOfImage part m.before dec
    if cyclePerm.length ≠ size then (perm, false)
    else fixAlong perm (cycleOg.tail.zip cyclePerm.tail)

/-- `fixAndPropagate`. -/
def fixAndPropagate (m : MinCheck n) (perm : PPerm n) (i : Fin n) (j : Option (Fin n)) :
    PPerm n × Bool :=
  let r := perm.fix i j
  if r.2 && !m.diagIsId then m.propagateDecision r.1 i else r

/-- The loop of `extendPerm`; an unfixed point without options makes the source read the first
element of an empty vector, which ends the run. -/
def extendFrom (m : MinCheck n) : List (Fin n) → PPerm n → Option (PPerm n)
  | [], perm => some perm
  | i :: rest, perm =>
    if perm.permOf i = none then
      match perm.options i with
      | [] => none
      | v :: _ => extendFrom m rest (m.fixAndPropagate perm i (some v)).1
    else extendFrom m rest perm

/-- `extendPerm`. -/
def extendPerm (m : MinCheck n) (perm : PPerm n) : Option (PPerm n) :=
  if !m.cfg.useBit || perm.fullDefined then some perm else m.extendFrom (List.finRange n) perm

end MinCheck

end YbeSms.Source
