/-
This file models the command queue of a device that is told about new commands by its doorbell.
The stores of the host reach the memory that the device reads in program order or in a weaker one.
-/

import Ostep.Library.Machine
import Ostep.Library.StoreBuffer

namespace Ostep.Doorbell

open Library StoreBuffer

abbrev Word := BitVec 32

/-- The queue has this many descriptors. -/
def queueSize : Nat := 256

structure CmdDesc where
  opcode : Word
  len : Word
  addr : BitVec 64
  deriving Repr, DecidableEq

inductive Field where
  | opcode
  | len
  | addr
  deriving Repr, DecidableEq

def CmdDesc.field (cmd : CmdDesc) : Field → BitVec 64
  | .opcode => cmd.opcode.setWidth 64
  | .len => cmd.len.setWidth 64
  | .addr => cmd.addr

/-- The memory that the host and the device share. -/
inductive Loc where
  | desc (slot : Word) (field : Field)
  | doorbell
  deriving Repr, DecidableEq

abbrev Memory := Loc → BitVec 64

abbrev Store := Item Loc (BitVec 64)

/-- What `submit_cmd` stores: the fields of the descriptor, then the new head to the doorbell.
The code has no barrier between them. -/
def submitStores (barrier : Bool) (head : Word) (cmd : CmdDesc) : List Store :=
  [.store (.desc (head &&& 255) .opcode) (cmd.field .opcode),
    .store (.desc (head &&& 255) .len) (cmd.field .len),
    .store (.desc (head &&& 255) .addr) (cmd.field .addr)] ++
  (if barrier then [.barrier] else []) ++
  [.store .doorbell ((head + 1).setWidth 64)]

/-- The device keeps the index of its next descriptor. -/
structure State where
  buffer : Buffer Loc (BitVec 64)
  head : Word
  next : Word

def readDesc (memory : Memory) (slot : Word) : CmdDesc where
  opcode := (memory (.desc slot .opcode)).setWidth 32
  len := (memory (.desc slot .len)).setWidth 32
  addr := memory (.desc slot .addr)

inductive Action where
  | submit (cmd : CmdDesc)
  | drain (position : Nat)
  | fetch
  deriving Repr, DecidableEq

inductive Event where
  | submitted (cmd : CmdDesc)
  | fetched (cmd : CmdDesc)
  deriving Repr, DecidableEq

def submitCmd (barrier : Bool) (state : State) (cmd : CmdDesc) : State :=
  { state with buffer := state.buffer.issueAll (submitStores barrier state.head cmd), head := state.head + 1 }

/-- A device that finds its doorbell ahead of its index fetches the next descriptor. -/
def fetch (state : State) : Option (State × List Event) :=
  if (state.buffer.memory .doorbell).setWidth 32 = state.next then none
  else some ({ state with next := state.next + 1 }, [.fetched (readDesc state.buffer.memory (state.next &&& 255))])

def step (order : Order) (barrier : Bool) (state : State) : Action → Option (State × List Event)
  | .submit cmd => some (submitCmd barrier state cmd, [.submitted cmd])
  | .drain position => (state.buffer.drain order position).map fun buffer => ({ state with buffer }, [])
  | .fetch => fetch state

def machine (order : Order) (barrier : Bool) : Machine State Action Event := ⟨step order barrier⟩

/-- The queue starts with its doorbell at the common index. -/
def initial (memory : Memory) (start : Word) : State :=
  ⟨⟨Function.update memory .doorbell (start.setWidth 64), [], 0⟩, start, start⟩

/-- The host submits a command only while the queue has a free descriptor. Nothing in `submit_cmd` tests it. -/
def Room (state : State) : Action → Prop
  | .submit _ => (state.head - state.next).toNat < queueSize
  | _ => True

instance (state : State) : (action : Action) → Decidable (Room state action)
  | .submit _ => inferInstanceAs (Decidable (_ < _))
  | .drain _ | .fetch => inferInstanceAs (Decidable True)

def Event.submission : Event → Option CmdDesc
  | .submitted cmd => some cmd
  | .fetched _ => none

def Event.fetching : Event → Option CmdDesc
  | .submitted _ => none
  | .fetched cmd => some cmd

def submitted (trace : List Event) : List CmdDesc := trace.filterMap Event.submission

def fetched (trace : List Event) : List CmdDesc := trace.filterMap Event.fetching

end Ostep.Doorbell
