import Mathlib.Data.Int.Notation
import Mathlib.Data.Nat.Notation

/-! # The output buffer of the primary

What the primary's guest sends passes a plug queueing discipline of the host
kernel. `output-buffer.c` installs the plug and drives it by netlink commands,
any of which can fail. A barrier closes the current epoch of packets, and the
oldest closed epoch is released when the backup has caught up with it.
-/

namespace VmFt.Colo

structure Packet where
  id : ℕ
  since : ℕ
deriving DecidableEq, Repr

/-! ### The kernel -/

inductive PlugCmd
  | create
  | limit (size : ℤ)
  | buffer
  | releaseOne
  | releaseIndefinite
  | delete
deriving DecidableEq, Repr

/-- The plug: whether it is open for good, the closed epochs from the oldest on, and the epoch
that is being filled. -/
structure Plug where
  indefinite : Bool
  closed : List (List Packet)
  current : List Packet
deriving DecidableEq, Repr

def Plug.new : Plug := ⟨false, [], []⟩

/-- What a command makes of the plug, and the packets it lets go. -/
def PlugCmd.run (q : Plug) : PlugCmd → Option Plug × List Packet
  | .create | .limit _ => (some q, [])
  | .buffer =>
    -- While the plug is open there is no epoch to close.
    if q.indefinite then (some { q with indefinite := false }, [])
    else (some { q with closed := q.closed ++ [q.current], current := [] }, [])
  | .releaseOne => match q.closed with
    | [] => (some q, [])
    | epoch :: rest => (some { q with closed := rest }, epoch)
  | .releaseIndefinite => (some ⟨true, [], []⟩, q.closed.flatten ++ q.current)
  | .delete => (none, [])

/-- The static variables of `output-buffer.c`, the kernel's plug, and what has left the host. -/
structure Output where
  bufferingEnabled : Bool
  bufferSize : ℤ
  newBufferSize : ℤ
  plug : Option Plug
  wire : List Packet
deriving DecidableEq, Repr

namespace Output

def startBuffer : ℤ := 1000 * 1000 * 1000 / 8

def init : Output := ⟨false, startBuffer, startBuffer, none, []⟩

def command (o : Output) (cmd : PlugCmd) : Output :=
  match o.plug with
  | none => if cmd = .create then { o with plug := some .new } else o
  | some q => { o with plug := (cmd.run q).1, wire := o.wire ++ (cmd.run q).2 }

/-- The guest sends a packet. -/
def emit (o : Output) (p : Packet) : Output :=
  match o.plug with
  | none => { o with wire := o.wire ++ [p] }
  | some q =>
    if q.indefinite then { o with wire := o.wire ++ [p] }
    else { o with plug := some { q with current := q.current ++ [p] } }

/-! ### The functions of `output-buffer.c`

Each takes the outcomes of its netlink commands and returns its result. -/

def einval : ℤ := 22

def mcDeliver (o : Output) (cmd : PlugCmd) (ok : Bool) : Output × ℤ :=
  if !o.bufferingEnabled then (o, 1)
  else if ok then (o.command cmd, 0)
  else (o, -einval)

def mcSetBufferSize (o : Output) (size : ℤ) (ok : Bool) : Output × ℤ :=
  if !o.bufferingEnabled then (o, 1)
  else mcDeliver { o with bufferSize := size, newBufferSize := size } (.limit size) ok

def mcSuspendBuffering (o : Output) (ok : Bool) : Output × ℤ :=
  if !o.bufferingEnabled then (o, 1) else mcDeliver o .releaseIndefinite ok

def mcDisableBuffering (o : Output) (suspended deleted : Bool) : Output × ℤ :=
  if !o.bufferingEnabled then (o, 0)
  else
    let o := (mcSuspendBuffering o suspended).1
    let o := if deleted then o.command .delete else o
    ({ o with bufferingEnabled := false }, 0)

/-- What `mc_enable_buffering` meets: whether a NIC was chosen, whether the netlink objects and
the plug module were found, and the outcome of each command. -/
structure EnableOutcome where
  nic : Bool
  opened : Bool
  created : Bool
  limited : Bool
  suspended : Bool
  suspendedAgain : Bool
  deleted : Bool
deriving DecidableEq, Repr

def mcEnableBuffering (o : Output) (r : EnableOutcome) : Output × ℤ :=
  if o.bufferingEnabled then (o, 0)
  else if !r.nic then (o, 1)
  else if !r.opened then failed o
  else
    let (o, ret) := mcDeliver { o with bufferingEnabled := true } .create r.created
    if ret < 0 then failed o
    else
      let (o, ret) := mcSetBufferSize o o.bufferSize r.limited
      if ret < 0 then failed o
      else
        let (o, ret) := mcSuspendBuffering o r.suspended
        if ret < 0 then failed o else (o, 0)
where
  failed (o : Output) : Output × ℤ :=
    ((mcDisableBuffering o r.suspendedAgain r.deleted).1, -einval)

def mcStartBuffer (o : Output) (limited ok : Bool) : Output × ℤ :=
  if !o.bufferingEnabled then (o, 0)
  else if o.newBufferSize ≠ o.bufferSize then
    let (o, ret) := mcSetBufferSize { o with bufferSize := o.newBufferSize } o.newBufferSize limited
    if ret < 0 then (o, -einval) else mcDeliver o .buffer ok
  else mcDeliver o .buffer ok

def mcFlushOldestBuffer (o : Output) (ok : Bool) : Output × ℤ :=
  if !o.bufferingEnabled then (o, 0) else mcDeliver o .releaseOne ok

end Output

end VmFt.Colo
