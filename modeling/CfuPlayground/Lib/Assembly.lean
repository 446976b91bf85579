import Mathlib.Logic.Relation
import CfuPlayground.Lib.Bytes

/-!
# RV32 assembly

A text is a list of lines; the program counter is the number of a line, and a jump goes to the
line of its label. A `call` does what the environment says of the function.

* `exec`: what the instructions other than jumps do;
* `step`: one line of a text;
* `Reaches.block`: a list of instructions is run in one go;
* **`Reaches.loop`**: the rule for a loop that goes on until two registers are equal, with an
  invariant for each round.
-/

namespace CfuPlayground.Lib.Assembly

/-- The number of a register. -/
abbrev Reg := BitVec 5

/-- The number of a control and status register. -/
abbrev Csr := BitVec 12

/-- The registers of a trap, and 0 in all others. -/
def trapCsrs (mepc mcause mtval : BitVec 32) (c : Csr) : BitVec 32 :=
  if c = 0x341 then mepc else if c = 0x342 then mcause else if c = 0x343 then mtval else 0

structure Machine where
  regs : Reg → BitVec 32
  csrs : Csr → BitVec 32
  mem : ByteMemory

namespace Machine

variable (m : Machine)

/-- `x0` reads as 0. -/
def reg (r : Reg) : BitVec 32 := if r = 0 then 0 else m.regs r

def setReg (r : Reg) (v : BitVec 32) : Machine := { m with regs := Function.update m.regs r v }

def setCsr (c : Csr) (v : BitVec 32) : Machine := { m with csrs := Function.update m.csrs c v }

def setMem (mem : ByteMemory) : Machine := { m with mem := mem }

/-- `sw rs2, offset(rs1)`. -/
def sw (rs2 : Reg) (offset : BitVec 32) (rs1 : Reg) : Machine :=
  m.setMem (storeWord m.mem (m.reg rs1 + offset) (m.reg rs2))

/-- `lw rd, offset(rs1)`. -/
def lw (rd : Reg) (offset : BitVec 32) (rs1 : Reg) : Machine :=
  m.setReg rd (loadWord m.mem (m.reg rs1 + offset))

/-- `addi rd, rs1, imm`. -/
def addi (rd rs1 : Reg) (imm : BitVec 32) : Machine := m.setReg rd (m.reg rs1 + imm)

/-- The registers of a trap. -/
def mepc : BitVec 32 := m.csrs 0x341

def mcause : BitVec 32 := m.csrs 0x342

def mtval : BitVec 32 := m.csrs 0x343

def setMepc (v : BitVec 32) : Machine := m.setCsr 0x341 v


variable {m} {r k : Reg} {v : BitVec 32}

@[simp] theorem reg_zero : m.reg 0 = 0 := rfl

theorem reg_of_ne (h : r ≠ 0) : m.reg r = m.regs r := if_neg h

theorem reg_setReg_self (h : r ≠ 0) : (m.setReg r v).reg r = v := by
  rw [reg_of_ne h]
  exact Function.update_self r v m.regs

theorem reg_setReg_of_ne (h : r ≠ k) : (m.setReg k v).reg r = m.reg r := by
  unfold reg
  split_ifs
  · rfl
  · exact Function.update_of_ne h v m.regs

@[simp] theorem setReg_mem : (m.setReg r v).mem = m.mem := rfl

@[simp] theorem setReg_csrs : (m.setReg r v).csrs = m.csrs := rfl

@[simp] theorem setMem_mem (mem : ByteMemory) : (m.setMem mem).mem = mem := rfl

@[simp] theorem setMem_csrs (mem : ByteMemory) : (m.setMem mem).csrs = m.csrs := rfl

@[simp] theorem reg_setMem (mem : ByteMemory) : (m.setMem mem).reg r = m.reg r := rfl

@[simp] theorem setCsr_mem (c : Csr) : (m.setCsr c v).mem = m.mem := rfl

@[simp] theorem reg_setCsr (c : Csr) : (m.setCsr c v).reg r = m.reg r := rfl

@[simp] theorem setReg_mepc : (m.setReg r v).mepc = m.mepc := rfl

theorem mepc_setMepc : (m.setMepc v).mepc = v := by
  simp [mepc, setMepc, setCsr]

end Machine

/-! ## The language -/

/-- The instructions other than jumps. `la` is also `li`, `F` are the functions called. -/
inductive Instr (F : Type)
  | nop
  | lw (rd : Reg) (offset : BitVec 32) (rs1 : Reg)
  | sw (rs2 : Reg) (offset : BitVec 32) (rs1 : Reg)
  | addi (rd rs1 : Reg) (imm : BitVec 32)
  | la (rd : Reg) (adr : BitVec 32)
  | csrw (csr : Csr) (rs1 : Reg)
  | call (f : F)

/-- A line of a text with the labels `L`. -/
inductive Line (L F : Type)
  | label (l : L)
  | instr (i : Instr F)
  | beq (rs1 rs2 : Reg) (l : L)
  | j (l : L)
  | mret

variable {L F : Type}

/-- A word at an address that is no multiple of four is not accessed. -/
def aligned (a : BitVec 32) : Prop := a.toNat % 4 = 0

instance (a : BitVec 32) : Decidable (aligned a) := inferInstanceAs (Decidable (_ = 0))

def Instr.exec (env : F → Machine → Machine) (i : Instr F) (m : Machine) : Option Machine :=
  match i with
  | nop => some m
  | lw rd offset rs1 =>
    if aligned (m.reg rs1 + offset) then some (m.lw rd offset rs1) else none
  | sw rs2 offset rs1 =>
    if aligned (m.reg rs1 + offset) then some (m.sw rs2 offset rs1) else none
  | addi rd rs1 imm => some (m.addi rd rs1 imm)
  | la rd adr => some (m.setReg rd adr)
  | csrw csr rs1 => some (m.setCsr csr (m.reg rs1))
  | call f => some (env f m)

/-- The instructions of a list, one after the other. -/
def exec (env : F → Machine → Machine) (is : List (Instr F)) (m : Machine) : Option Machine :=
  is.foldlM (fun m i => i.exec env m) m

/-- The instructions as lines. -/
def lines (is : List (Instr F)) : List (Line L F) := is.map .instr

section Text

variable [DecidableEq L]

def Line.isLabel (l : L) : Line L F → Bool
  | label l' => l = l'
  | _ => false

/-- The number of the line with this label. -/
def position (text : List (Line L F)) (l : L) : ℕ := text.findIdx (Line.isLabel l)

/-- **One line.** `mret` and the end of the text stop. -/
def step (text : List (Line L F)) (env : F → Machine → Machine) (s : ℕ × Machine) :
    Option (ℕ × Machine) :=
  match text[s.1]? with
  | some (.label _) => some (s.1 + 1, s.2)
  | some (.instr i) => (i.exec env s.2).map fun m => (s.1 + 1, m)
  | some (.beq rs1 rs2 l) =>
    some (if s.2.reg rs1 = s.2.reg rs2 then position text l else s.1 + 1, s.2)
  | some (.j l) => some (position text l, s.2)
  | some .mret => none
  | none => none

/-- A number of lines take `s` to `s'`. -/
def Reaches (text : List (Line L F)) (env : F → Machine → Machine) (s s' : ℕ × Machine) : Prop :=
  Relation.ReflTransGen (fun s s' => step text env s = some s') s s'

end Text

/-! ## Rules -/

section Rules

variable {env : F → Machine → Machine} {m m' m'' : Machine}

@[simp] theorem exec_nil : exec env [] m = some m := rfl

theorem exec_cons (i : Instr F) (is : List (Instr F)) :
    exec env (i :: is) m = (i.exec env m).bind (exec env is) := by
  rw [exec, List.foldlM_cons]
  rfl

theorem exec_append (is js : List (Instr F)) :
    exec env (is ++ js) m = (exec env is m).bind (exec env js) := by
  rw [exec, List.foldlM_append]
  rfl

variable {text : List (Line L F)} {s s' s'' : ℕ × Machine} {k : ℕ}

theorem getElem?_of_isPrefix {part : List (Line L F)} (h : part <+: text.drop k) {i : ℕ}
    (hi : i < part.length) : text[k + i]? = part[i]? := by
  obtain ⟨rest, hrest⟩ := h
  rw [← List.getElem?_drop, ← hrest, List.getElem?_append_left hi]

variable [DecidableEq L]

theorem Reaches.refl : Reaches text env s s := Relation.ReflTransGen.refl

theorem Reaches.trans (h : Reaches text env s s') (h' : Reaches text env s' s'') :
    Reaches text env s s'' := Relation.ReflTransGen.trans h h'

theorem Reaches.head (h : step text env s = some s') (h' : Reaches text env s' s'') :
    Reaches text env s s'' := Relation.ReflTransGen.head h h'

theorem Reaches.single (h : step text env s = some s') : Reaches text env s s' :=
  Relation.ReflTransGen.single h

theorem Reaches.label {l : L} (h : text[k]? = some (.label l)) :
    Reaches text env (k, m) (k + 1, m) := .single (by simp [step, h])

theorem Reaches.j {l : L} (h : text[k]? = some (.j l)) :
    Reaches text env (k, m) (position text l, m) := .single (by simp [step, h])

theorem Reaches.beq {rs1 rs2 : Reg} {l : L} (h : text[k]? = some (.beq rs1 rs2 l))
    (hr : m.reg rs1 = m.reg rs2) : Reaches text env (k, m) (position text l, m) :=
  .single (by simp [step, h, hr])

theorem Reaches.beq_of_ne {rs1 rs2 : Reg} {l : L} (h : text[k]? = some (.beq rs1 rs2 l))
    (hr : m.reg rs1 ≠ m.reg rs2) : Reaches text env (k, m) (k + 1, m) :=
  .single (by simp [step, h, hr])

/-- **Instructions without jumps** are run in one go. -/
theorem Reaches.block (is : List (Instr F)) (h : lines is <+: text.drop k)
    (hm : exec env is m = some m') : Reaches text env (k, m) (k + is.length, m') := by
  induction is generalizing k m with
  | nil =>
    cases hm
    exact .refl
  | cons i is ih =>
    obtain ⟨rest, hrest⟩ := h
    rw [exec_cons, Option.bind_eq_some_iff] at hm
    obtain ⟨m₁, h₁, h₂⟩ := hm
    have hi : text[k]? = some (.instr i) := by
      have hget := getElem?_of_isPrefix (i := 0) ⟨rest, hrest⟩ (by simp [lines])
      simpa [lines] using hget
    have htail : lines is <+: text.drop (k + 1) := by
      refine ⟨rest, ?_⟩
      rw [← List.drop_drop, ← hrest]
      rfl
    have hrun := ih htail h₂
    rw [Nat.add_right_comm, Nat.add_assoc] at hrun
    exact .head (by simp [step, hi, h₁]) hrun

/-- The lines of a loop that goes on until `rs1` and `rs2` are equal. -/
def loopLines (head : L) (rs1 rs2 : Reg) (done : L) (body : List (Instr F)) : List (Line L F) :=
  .label head :: .beq rs1 rs2 done :: (lines body ++ [.j head])

theorem Reaches.round {head done : L} {rs1 rs2 : Reg} {body : List (Instr F)}
    (h : loopLines head rs1 rs2 done body <+: text.drop k) (hk : position text head = k)
    (hr : m.reg rs1 ≠ m.reg rs2) (hm : exec env body m = some m') :
    Reaches text env (k, m) (k, m') := by
  have hlen : (loopLines head rs1 rs2 done body).length = body.length + 3 := by
    simp [loopLines, lines]
  have hlabel : text[k]? = some (.label head) :=
    getElem?_of_isPrefix (i := 0) h (by simp [hlen])
  have hbeq : text[k + 1]? = some (.beq rs1 rs2 done) :=
    getElem?_of_isPrefix (i := 1) h (by simp [hlen])
  have hbody : lines body <+: text.drop (k + 1 + 1) := by
    obtain ⟨rest, hrest⟩ := h
    refine ⟨.j head :: rest, ?_⟩
    rw [← List.drop_drop, ← List.drop_drop, ← hrest]
    simp [loopLines]
  have hj : text[k + 1 + 1 + body.length]? = some (.j head) := by
    have hget := getElem?_of_isPrefix (i := body.length + 2) h (by simp [hlen])
    rw [show k + 1 + 1 + body.length = k + (body.length + 2) by omega, hget]
    simp [loopLines, lines]
  refine (Reaches.label hlabel).trans ((Reaches.beq_of_ne hbeq hr).trans
    ((Reaches.block body hbody hm).trans ?_))
  have hback : Reaches text env (_, m') (position text head, m') := Reaches.j hj
  rwa [hk] at hback

/-- **The rule for loops.** `Inv i` holds before round `i`; after `n` rounds the registers are
equal. -/
theorem Reaches.loop (Inv : ℕ → Machine → Prop) {head done : L} {rs1 rs2 : Reg}
    {body : List (Instr F)}
    (h : loopLines head rs1 rs2 done body <+: text.drop k) (hk : position text head = k)
    {n : ℕ}
    (hround : ∀ i < n, ∀ m, Inv i m → m.reg rs1 ≠ m.reg rs2 ∧
      ∃ m', exec env body m = some m' ∧ Inv (i + 1) m')
    (hdone : ∀ m, Inv n m → m.reg rs1 = m.reg rs2) (h0 : Inv 0 m) :
    ∃ m', Inv n m' ∧ Reaches text env (k, m) (position text done, m') := by
  have hrounds : ∀ i ≤ n, ∃ m', Inv i m' ∧ Reaches text env (k, m) (k, m') := by
    intro i hi
    induction i with
    | zero => exact ⟨m, h0, .refl⟩
    | succ i ih =>
      obtain ⟨m₁, hm₁, hreach⟩ := ih (by omega)
      obtain ⟨hne, m₂, hexec, hm₂⟩ := hround i (by omega) m₁ hm₁
      exact ⟨m₂, hm₂, hreach.trans (Reaches.round h hk hne hexec)⟩
  obtain ⟨m', hm', hreach⟩ := hrounds n le_rfl
  have hlabel : text[k]? = some (.label head) :=
    getElem?_of_isPrefix (i := 0) h (by simp [loopLines])
  have hbeq : text[k + 1]? = some (.beq rs1 rs2 done) :=
    getElem?_of_isPrefix (i := 1) h (by simp [loopLines])
  exact ⟨m', hm', hreach.trans ((Reaches.label hlabel).trans (Reaches.beq hbeq (hdone m' hm')))⟩

end Rules

end CfuPlayground.Lib.Assembly
