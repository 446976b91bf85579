import CfuPlayground.Cfu.Port

/-!
# A CFU between a client and a Wishbone slave

The environment of a CFU, as one state machine. In each clock period the client and the slave
hold their wires from one rising edge to the next; the CFU sees them at the falling edge in the
middle and at the rising edge that ends the period. All freedom of the environment is in the
stream of `Moves`.

* The client follows the valid/ready protocol: an offered command and its payload stay until
  the rising edge that finds `cmd_ready` high. A *blocking* client offers a command only when
  every command accepted so far has been answered.
* The slave raises `ack` for one period at a time, at least one period apart, after any number
  of wait or `err` periods, while the request is up (`cyc` and `stb` high at the rising edge,
  or at the one before), with the word stored at the address it samples when `ack` rises.
-/

namespace CfuPlayground

/-- What the slave would do at a rising edge; `dat` is the data bus while nothing is
acknowledged. -/
inductive SlaveMove
  | wait (dat : Word)
  | err (dat : Word)
  | ack (dat : Word)

/-- The slave's wires during a period. -/
structure Reply where
  ack : Bool
  err : Bool
  dat : Word
deriving DecidableEq

/-- The free choices of the environment in one period. -/
structure Moves where
  /-- The command the client issues next, if it may. -/
  next : Option Command
  /-- The command payload wires while no command is offered. -/
  idle : Command
  rspReady : Bool
  slave : SlaveMove

/-- A CFU with registers `σ` in its environment, just after a rising edge. `accepted` and
`responses` record the two channels, oldest first. -/
structure Soc (σ : Type) where
  cfu : σ
  offer : Option Command
  accepted : List Command
  responses : List Word
  reply : Reply
  /-- `cyc` and `stb` were high at the last rising edge. -/
  seen : Bool
deriving DecidableEq

variable {σ : Type}

/-- The slave's wires after a rising edge with the CFU's outputs `o`. -/
def Reply.next (mem : Memory) (o : Out) (seen : Bool) (r : Reply) : SlaveMove → Reply
  | .wait dat => ⟨false, false, dat⟩
  | .err dat => ⟨false, true, dat⟩
  | .ack dat =>
    if (o.cfuRamCyc && o.cfuRamStb || seen) && !r.ack then ⟨true, false, mem o.cfuRamAdr⟩
    else ⟨false, false, dat⟩

/-- The wires the CFU reads in a period. -/
def Soc.wires (m : Moves) (s : Soc σ) : In where
  cmdValid := s.offer.isSome
  cmdPayload := s.offer.getD m.idle
  rspReady := m.rspReady
  reset := false
  cfuRamDatMiso := s.reply.dat
  cfuRamAck := s.reply.ack
  cfuRamErr := s.reply.err

/-- The CFU after the falling edge of a period. -/
def Soc.mid (G : Gateware σ) (m : Moves) (s : Soc σ) : σ := G.negedgeClk (s.wires m) s.cfu

/-- The command accepted at the rising edge that ends a period. -/
def Soc.accepts (G : Gateware σ) (m : Moves) (s : Soc σ) : Option Command :=
  if (G.out (s.mid G m)).cmdReady then s.offer else none

/-- The response transferred at the rising edge that ends a period. -/
def Soc.transfers (G : Gateware σ) (m : Moves) (s : Soc σ) : Option Word :=
  if (G.out (s.mid G m)).rspValid && m.rspReady then
    some (G.out (s.mid G m)).rspPayloadOutputs0
  else none

/-- The command a client has on the wires after a rising edge. -/
def nextOffer (blocking : Bool) (m : Moves) (kept : Option Command) (accepted : List Command)
    (responses : List Word) : Option Command :=
  if kept.isSome then kept
  else if blocking && accepted.length != responses.length then none
  else m.next

/-- **One clock period** of the CFU and its environment. -/
def Soc.tick (G : Gateware σ) (mem : Memory) (blocking : Bool) (m : Moves) (s : Soc σ) : Soc σ :=
  let o := G.out (s.mid G m)
  let accepted := s.accepted ++ (s.accepts G m).toList
  let responses := s.responses ++ (s.transfers G m).toList
  { cfu := G.posedgeClk (s.wires m) (s.mid G m)
    offer := nextOffer blocking m (if o.cmdReady then none else s.offer) accepted responses
    accepted := accepted
    responses := responses
    reply := s.reply.next mem o s.seen m.slave
    seen := o.cfuRamCyc && o.cfuRamStb }

/-- The CFU `c` with nothing offered, nothing recorded and a quiet bus. -/
def Soc.start (c : σ) : Soc σ where
  cfu := c
  offer := none
  accepted := []
  responses := []
  reply := ⟨false, false, 0⟩
  seen := false

/-- The run of a CFU in its environment. -/
def Soc.run (G : Gateware σ) (mem : Memory) (blocking : Bool) (moves : ℕ → Moves) (s : Soc σ) :
    ℕ → Soc σ :=
  Lib.run (Soc.tick G mem blocking) moves s

end CfuPlayground
