import PFS.Permission

/-! # Token lists

`File::hasPermission`, `File::addPermission` and `File::revokePermission` over a
list of tokens, and what they do to an arbitrary list: revocation always clears
its range and neither operation ever invents coverage.  These facts need no
order on the list, so they hold of every list either table can reach.

The index variables `s` and `e` of the source become the cuts of the list at
these indices.
-/

namespace PFS

/-- `permissions[0..s)`, `permissions[s]`, `permissions(s..e]` and what follows,
    as the two loops at the head of `addPermission` leave them. -/
structure Scan where
  before : List Permission
  first : Permission
  run : List Permission
  after : List Permission

namespace Scan

/-- `permissions[e]`. -/
def last (sc : Scan) : Permission := sc.run.getLastD sc.first

def list (sc : Scan) : List Permission := sc.before ++ sc.first :: (sc.run ++ sc.after)

end Scan

/-- The second loop moves `e` only when it meets a token the range does not
    touch; when every remaining token is touched, `e` stays at `s`. -/
def scan (start stop : Nat) (l : List Permission) : Option Scan :=
  match l.dropWhile (fun p => !p.isInclusiveShared start stop) with
  | [] => none
  | first :: rest =>
      let run :=
        if rest.all (fun p => p.isInclusiveShared start stop) then []
        else rest.takeWhile (fun p => p.isInclusiveShared start stop)
      some {
        before := l.takeWhile (fun p => !p.isInclusiveShared start stop)
        first := first
        run := run
        after := rest.drop run.length }

/-- The bounds of the token that is added, widened over the outer tokens of the
    run: over write tokens when a write token is added, over read tokens when a
    read token is. -/
def Scan.writeStart (sc : Scan) (start : Nat) : Nat :=
  if sc.first.write then min sc.first.start start else start

def Scan.writeEnd (sc : Scan) (stop : Nat) : Nat :=
  if sc.last.write then max sc.last.stop stop else stop

def Scan.readStart (sc : Scan) (start : Nat) : Nat :=
  if !sc.first.write && sc.first.start < start then sc.first.start else start

def Scan.readEnd (sc : Scan) (stop : Nat) : Nat :=
  if !sc.last.write && sc.last.stop > stop then sc.last.stop else stop

/-- The read token left in front of a new write token. -/
def Scan.sPermit (sc : Scan) (start : Nat) : List Permission :=
  if !sc.first.write && sc.first.start < start then [⟨sc.first.start, start, false, false, []⟩] else []

/-- The read token left behind a new write token.  It ends where
    `permissions[s]` ends, as in the source, not where `permissions[e]` does. -/
def Scan.ePermit (sc : Scan) (stop : Nat) : List Permission :=
  if !sc.last.write && sc.last.stop > stop then [⟨stop, sc.first.stop, false, false, []⟩] else []

/-- What replaces `permissions[s..e]` when a write token is added. -/
def mergeWrite (sc : Scan) (start stop : Nat) (lockNew : Bool) : List Permission :=
  sc.sPermit start ++ ⟨sc.writeStart start, sc.writeEnd stop, true, lockNew, []⟩ :: sc.ePermit stop

/-- `if(lockNewPermissions) p->lock()`. -/
def lockIf (lockNew : Bool) (p : Permission) : Option Permission :=
  if lockNew then p.lock else some p

/-- The loop that takes the write tokens from the last to the first and puts a
    read token after each; `acc` is what has been inserted at `s` so far. -/
def fillGaps (lockNew : Bool) : List Permission → Nat → List Permission →
    Option (Nat × List Permission)
  | [], newEnd, acc => some (newEnd, acc)
  | w :: ws, newEnd, acc => do
      let kept ← lockIf lockNew w
      fillGaps lockNew ws w.start (kept :: ⟨w.stop, newEnd, false, lockNew, []⟩ :: acc)

/-- The case of the last write token reaching `newEnd`, then the loop. -/
def fillFrom (lockNew : Bool) (newEnd : Nat) : List Permission → Option (Nat × List Permission)
  | [] => some (newEnd, [])
  | w :: ws =>
      if w.start ≤ newEnd ∧ newEnd ≤ w.stop then do
        let kept ← lockIf lockNew w
        fillGaps lockNew ws w.start [kept]
      else fillGaps lockNew (w :: ws) newEnd []

/-- The write tokens of the run, which adding a read token keeps. -/
def Scan.writePermits (sc : Scan) : List Permission := (sc.first :: sc.run).filter (fun p => p.write)

/-- What replaces `permissions[s..e]` when a read token is added.  `newStart`
    and `newEnd` are `int`, so the last comparison is a signed one. -/
def mergeRead (sc : Scan) (start stop : Nat) (lockNew : Bool) : Option (List Permission) :=
  if sc.writePermits.isEmpty then some [⟨sc.readStart start, sc.readEnd stop, false, lockNew, []⟩]
  else do
    let filled ← fillFrom lockNew (sc.readEnd stop) sc.writePermits.reverse
    if asInt (sc.readStart start) < asInt filled.1 then
      some (⟨sc.readStart start, filled.1, false, lockNew, []⟩ :: filled.2)
    else some filled.2

/-- The branch without sharing: behind the last token that ends before `start`. -/
def insertPermit (permit : Permission) (l : List Permission) : List Permission :=
  l.rdropWhile (fun p => !decide (p.stop < permit.start)) ++
    permit :: l.rtakeWhile (fun p => !decide (p.stop < permit.start))

/-- `File::addPermission`; `none` when a `lock()` it makes blocks for good. -/
def addPermission (start stop : Nat) (write : Bool) (l : List Permission) (lockNew : Bool) :
    Option (List Permission) :=
  match scan start stop l with
  | some sc =>
      if write then some (sc.before ++ mergeWrite sc start stop lockNew ++ sc.after)
      else (mergeRead sc start stop lockNew).map (fun merged => sc.before ++ merged ++ sc.after)
  | none => some (insertPermit ⟨start, stop, write, lockNew, []⟩ l)

/-- The pieces of the only token the revoked range touches. -/
def cutOne (p : Permission) (start stop : Nat) : List Permission :=
  (if p.start < start then [⟨p.start, start, p.write, false, []⟩] else []) ++
    if stop < p.stop then [⟨stop, p.stop, p.write, false, []⟩] else []

/-- The changes to `permissions[s..e]`, from the first to the last token the
    revoked range touches. -/
def cutRun (start stop : Nat) : List Permission → List Permission
  | [] => []
  | [p] => cutOne p start stop
  | p :: q :: rest =>
      let last := rest.getLastD q
      (if p.start < start then [{ p with stop := start }] else []) ++
        if last.stop > stop then [{ last with start := stop }] else []

/-- `File::revokePermission` once its waiting is over. -/
def revokePermission (start stop : Nat) (l : List Permission) : List Permission :=
  let untouched := fun p : Permission => !p.isShared start stop
  let rest := l.dropWhile untouched
  l.takeWhile untouched ++ cutRun start stop (rest.rdropWhile untouched) ++ rest.rtakeWhile untouched

/-- `permissions[s..e]` of `hasPermission`: from the last token that starts at
    or before `start` to the first from there on that reaches `stop`. -/
def candidates (start stop : Nat) (l : List Permission) : Option (List Permission) :=
  let s :=
    match l.findIdx? (fun p => p.start > start) with
    | some 0 => none
    | some (i + 1) => some i
    | none => some (l.length - 1)
  s.map fun s =>
    let rest := l.drop s
    match rest.findIdx? (fun p => p.stop ≥ stop) with
    | some k => rest.take (k + 1)
    | none => rest

/-- Each token ends where the next one starts. -/
def adjoining : List Permission → Bool
  | [] => true
  | [_] => true
  | p :: q :: rest => p.stop = q.start && adjoining (q :: rest)

/-- `File::hasPermission`. -/
def hasPermission (start stop : Nat) (write : Bool) (l : List Permission) : Bool :=
  if l.isEmpty then false
  else
    match candidates start stop l with
    | none => false
    | some [] => false
    | some (p :: rest) =>
        decide (p.start ≤ start) && decide (stop ≤ (rest.getLastD p).stop) &&
          (!write || (p :: rest).all (fun q => q.write)) && adjoining (p :: rest)

end PFS
