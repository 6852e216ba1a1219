import YbeSms.Source.MinCheckCommon
import YbeSms.Library.Traced

/-!
# The minimality search

Source: ybe-sms/src/minCheckCommon.cpp:42-114 and minCheck_V2.cpp:46-93, 95-284.
A run logs the permutations it hands on and the images it chooses; it stops with
the clause it throws, at a limit, or where the source would read outside a vector.
The rows that `checkMinimality` still has to visit are a list. A permutation
shared between an option and its parent is used once, so the model copies it.
-/

namespace YbeSms.Source

open YbeSms.Library

variable {n : Nat}

/-- Why a search stops early. -/
inductive Stop where
  | clause (c : Clause)
  | limit
  | fault
  deriving DecidableEq

/-- What a search logs: calls of `addClauses`, `permFullyDefinedCheck` and `fixAndPropagate` with
their arguments, and before the last kind a mark where it fixes the greatest inverse image. -/
inductive Event (n : Nat) where
  | learn (perm : Fin n → Fin n) (r c : Fin n)
  | check (perm : Fin n → Fin n) (r c : Fin n)
  | choose (perm : PPerm n) (i : Fin n) (j : Option (Fin n))
  | fixGreatest (perm : PPerm n) (maxel : Fin n) (maxi : Option (Fin n))

/-- A step of the search. -/
abbrev Search (n : Nat) (α : Type) := Traced (Event n) Stop α

/-- The first row or column. -/
def firstPoint (r : Fin n) : Fin n := ⟨0, r.pos⟩

namespace MinCheck

variable (m : MinCheck n) (cycset : CycleSet n)

/-- `addClauses` as a step: throwing the clause stops the search. -/
def throwClauses (perm : Fin n → Fin n) (r c : Fin n) : Search n Unit := do
  Traced.log (.learn perm r c)
  match m.addClauses cycset perm r c with
  | some clause => Traced.stop (.clause clause)
  | none => pure ()

/-- Whether a round of `permFullyDefinedCheck` goes on to the next cell. -/
inductive Round where
  | next
  | leave

/-- One cell of `permFullyDefinedCheck`. -/
def fullRound (perm : Fin n → Fin n) (r c : Fin n) : Search n Round :=
  let minog := (cycset.bitdomains r c).firstel
  let minOgFixed := (cycset.bitdomains r c).numTrue == 1
  let permVal := (cycset.bitdomains (perm r) (perm c)).options
  match permVal with
  | [] => Traced.stop .fault
  | [pv] =>
    let inv := invperm perm pv
    if inv < minog then do
      m.throwClauses cycset perm r c
      pure .next
    else if minOgFixed ∧ inv = minog then pure .next
    else if m.cfg.propagateMincheck ∧ inv = minog then do
      m.throwClauses cycset perm r c
      pure .next
    else pure .leave
  | permVal =>
    let max := lastInverse (permvals cycset perm r c)
    if max < minog then do
      m.throwClauses cycset perm r c
      pure .next
    else if !m.cfg.propagateMincheck ∧ max ≤ minog then pure .next
    else if m.cfg.propagateMincheck then
      if perm r = r ∧ perm c = c then do
        Traced.fold (fun _ _ => m.throwClauses cycset perm r c) ()
          (permVal.filter fun pv => invperm perm pv < (pv.val : Int))
        pure .leave
      else if max = minog then do
        m.throwClauses cycset perm r c
        pure .next
      else pure .leave
    else pure .leave

/-- The loop of `permFullyDefinedCheck` over the remaining cells. -/
def fullRounds (perm : Fin n → Fin n) : List (Fin n × Fin n) → Search n Unit
  | [] => pure ()
  | q :: rest => do
    match ← m.fullRound cycset perm q.1 q.2 with
    | .next => fullRounds perm rest
    | .leave => pure ()

/-- `permFullyDefinedCheck(perm, i, j)`. -/
def permFullyDefinedCheck (perm : Fin n → Fin n) (i j : Fin n) : Search n Unit := do
  Traced.log (.check perm i j)
  if permIsId perm then pure ()
  else
    m.fullRounds cycset perm ((cells n).filter fun q => !(q.1 < i || (q.1 == i && q.2 < j)))

/-- `fixAndPropagate` as a step. -/
def choose (perm : PPerm n) (i : Fin n) (j : Option (Fin n)) : Search n (PPerm n × Bool) := do
  Traced.log (.choose perm i j)
  pure (m.fixAndPropagate perm i j)

/-- The calls of `fixAndPropagate` in the loop of `extendPerm`. -/
def extendCalls : List (Fin n) → PPerm n → List (Event n)
  | [], _ => []
  | i :: rest, perm =>
    if perm.permOf i = none then
      match perm.options i with
      | [] => []
      | v :: _ => .choose perm i (some v) :: extendCalls rest (m.fixAndPropagate perm i (some v)).1
    else extendCalls rest perm

/-- `extendPerm` as a step. -/
def extend (perm : PPerm n) : Search n (PPerm n) := do
  Traced.logAll (if m.cfg.useBit && !perm.fullDefined then m.extendCalls (List.finRange n) perm
    else [])
  Traced.ofOption .fault (m.extendPerm perm)

/-- `extendPerm`, `getPerm` and `addClauses` in a row; the permutation is returned as the calls
leave it. -/
def learn (perm : PPerm n) (r : Fin n) : Search n (PPerm n) := do
  let extended ← m.extend perm
  let p ← Traced.ofOption .fault extended.getPerm
  m.throwClauses cycset p (firstPoint r) r
  pure extended

/-- What becomes of an option: it is dropped, kept, or ends the loop over the options. -/
inductive Verdict (n : Nat) where
  | drop
  | keep (perm : PPerm n)
  | leave (kept : Option (PPerm n))

/-- The image cell has one value `pv` left. -/
def singleValue (perm : PPerm n) (r pv : Fin n) : Search n (Verdict n) :=
  let minog := (cycset.bitdomains (firstPoint r) r).firstel
  let minOgFixed := (cycset.bitdomains (firstPoint r) r).numTrue == 1
  match perm.invPermOf pv with
  | some inv =>
    if (inv.val : Int) < minog then do
      let _ ← m.learn cycset perm r
      pure .drop
    else if minOgFixed ∧ inv.val = minog then pure (.keep perm)
    else if m.cfg.propagateMincheck ∧ inv.val = minog then do
      let _ ← m.learn cycset perm r
      pure .drop
    else pure .drop
  | none =>
    match (perm.invOptions pv).min? with
    | none => Traced.stop .fault
    | some inv =>
      if (inv.val : Int) < minog then do
        let fixed ← m.choose perm inv (some pv)
        let _ ← m.learn cycset fixed.1 r
        pure .drop
      else if minOgFixed ∧ inv.val = minog then do
        let fixed ← m.choose perm inv (some pv)
        pure (.keep fixed.1)
      else if m.cfg.propagateMincheck ∧ inv.val = minog then do
        let fixed ← m.choose perm inv (some pv)
        let _ ← m.learn cycset fixed.1 r
        pure .drop
      else pure .drop

/-- The least inverse image of a value is chosen, unless it is the only one. -/
def chooseLeast (perm : PPerm n) (newmin pv : Fin n) : Search n (PPerm n) :=
  if (perm.invOptions pv).length = 1 then pure perm
  else do
    let fixed ← m.choose perm newmin (some pv)
    pure fixed.1

/-- The loop over the values of the image cell when the permutation fixes the cell. -/
def fixedCellValues (r : Fin n) : List (Fin n) → PPerm n → Search n (PPerm n)
  | [], perm => pure perm
  | pv :: rest, perm =>
    match (perm.invOptions pv).min? with
    | none => Traced.stop .fault
    | some newmin =>
      if newmin < pv then do
        let fixed ← m.chooseLeast perm newmin pv
        let perm ← m.learn cycset fixed r
        fixedCellValues r rest perm
      else fixedCellValues r rest perm

/-- `maxel`, `maxi` and the size of `alreadyDefined`. -/
structure Greatest (n : Nat) where
  maxel : Option (Fin n)
  maxi : Option (Fin n)
  alreadyDefined : Int

/-- One value of the loop that looks for the greatest inverse image; `none` when there is no
inverse option. -/
def greatestRound (perm : PPerm n) (g : Greatest n) (pv : Fin n) : Option (Greatest n) :=
  let iopt := perm.invOptions pv
  match iopt.max? with
  | none => none
  | some newmax =>
    if iopt.length = 1 then
      some { g with
        alreadyDefined := g.alreadyDefined + 1
        maxel := if toInt g.maxel < newmax.val then some newmax else g.maxel }
    else if toInt g.maxel < newmax.val then some { g with maxel := some newmax, maxi := some pv }
    else some g

/-- The greatest inverse image over the values of the image cell. -/
def greatest (perm : PPerm n) (vals : List (Fin n)) : Option (Greatest n) :=
  vals.foldlM (greatestRound perm) ⟨none, none, 0⟩

/-- The greatest inverse image is chosen, unless all are known or it is too large anyway. -/
def chooseGreatest (perm : PPerm n) (g : Greatest n) (values minog : Int) : Search n (PPerm n) :=
  if g.alreadyDefined = values ∨ minog < toInt g.maxel then pure perm
  else do
    let maxel ← Traced.ofOption .fault g.maxel
    Traced.log (.fixGreatest perm maxel g.maxi)
    let fixed ← m.choose perm maxel g.maxi
    pure fixed.1

/-- The image cell has several values left. -/
def severalValues (perm : PPerm n) (r : Fin n) (permVal : BitDomain n) : Search n (Verdict n) :=
  if perm.permOf (firstPoint r) = some (firstPoint r) ∧ perm.permOf r = some r then do
    let _ ← m.fixedCellValues cycset r permVal.options perm
    pure (.leave none)
  else do
    let minog := (cycset.bitdomains (firstPoint r) r).firstel
    let g ← Traced.ofOption .fault (greatest perm permVal.options)
    let perm ← m.chooseGreatest perm g permVal.numTrue minog
    if toInt g.maxel < minog then do
      let _ ← m.learn cycset perm r
      pure (.leave none)
    else if !m.cfg.propagateMincheck ∧ minog = toInt g.maxel then pure (.leave (some perm))
    else if m.cfg.propagateMincheck ∧ minog = toInt g.maxel then do
      let _ ← m.learn cycset perm r
      pure (.leave none)
    else pure (.leave none)

/-- The comparison of cell `(0, r)` with its image, once an option is chosen. -/
def examine (perm : PPerm n) (r : Fin n) : Search n (Verdict n) := do
  let i ← Traced.ofOption .fault (perm.permOf (firstPoint r))
  let j ← Traced.ofOption .fault (perm.permOf r)
  let permVal := cycset.bitdomains i j
  if permVal.numTrue = 1 then do
    let pv ← Traced.ofOption .fault (ofInt permVal.firstel)
    m.singleValue cycset perm r pv
  else m.severalValues cycset perm r permVal

/-- The option is chosen, unless the point is fixed already. -/
def chooseOption (perm : PPerm n) (r option : Fin n) : Search n (PPerm n × Bool) :=
  if perm.fixed r then pure (perm, true) else m.choose perm r (some option)

/-- `filterOptions`: the options that stay, each with what its choice forces. -/
def filterOptions (perm : PPerm n) (r : Fin n) : List (Fin n) → Search n (List (PPerm n))
  | [] => pure []
  | option :: rest => do
    let chosen ← m.chooseOption perm r option
    if chosen.2 then
      match ← m.examine cycset chosen.1 r with
      | .drop => filterOptions perm r rest
      | .keep kept => do
        let others ← filterOptions perm r rest
        pure (kept :: others)
      | .leave kept => pure kept.toList
    else filterOptions perm r rest

/-- `checkMinimality(perm, r, d)`: `rows` are the rows from `r` on, `its` counts the calls. -/
def checkMinimality (isFinal : Bool) : List (Fin n) → PPerm n → Int → Int → Search n Int
  | [], _, _, its => pure its
  | r :: later, perm, d, its =>
    if !isFinal ∧ m.cfg.maxMC ≤ its + 1 then Traced.stop .limit
    else do
      let options := perm.options r
      let propagated ← m.filterOptions cycset perm r options
      Traced.fold (fun its option =>
        if option.fullDefined then do
          let p ← Traced.ofOption .fault option.getPerm
          m.permFullyDefinedCheck cycset p (firstPoint r) r
          pure its
        else if 0 < options.length then
          if isFinal ∨ d + 1 ≤ m.cfg.maxDepth then
            checkMinimality isFinal later option (d + 1) its
          else pure its
        else checkMinimality isFinal later option d its) (its + 1) propagated

/-- `MinCheck(cycset)`. -/
def minCheck (isFinal : Bool) : Search n Int :=
  m.checkMinimality cycset isFinal (List.finRange n) m.initialPart 0 0

/-- `preCheck` followed by `MinCheck`, as `checkMin` runs them. -/
def run (isFinal : Bool) : Search n Unit :=
  if preCheck cycset then pure ()
  else do
    let _ ← m.minCheck cycset isFinal
    pure ()

end MinCheck

end YbeSms.Source
