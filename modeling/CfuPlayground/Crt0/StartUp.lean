import CfuPlayground.Crt0.Model

/-!
# Start-up

From `crt_init` both texts come to `call main` on every machine. The stack pointer, the trap vector
and the enabled interrupts are set, `.bss` is zero, and no other byte changes but those of `.data`.

`.data` is copied upwards, so it gets its initial values, whatever they are, exactly if they are
loaded at its own place or `.data` does not begin within them (**`crt0Vexriscv_initialises_iff`**,
**`crt0_initialises_iff`**).
-/

namespace CfuPlayground.Crt0

open Lib Lib.Assembly

namespace Symbols

variable (S : Symbols)

/-- The words of `.data` and of `.bss`. -/
def dataWords : ℕ := (S.edata.toNat - S.fdata.toNat) / 4
def bssWords : ℕ := (S.ebss.toNat - S.fbss.toNat) / 4

/-- The memory after start-up. -/
def startMem (mem : ByteMemory) : ByteMemory :=
  fillWords (copyWords mem S.dataRom S.fdata S.dataWords) S.fbss 0 S.bssWords

theorem four_dataWords : 4 * S.dataWords = S.edata.toNat - S.fdata.toNat := by
  have hf := S.aligned_fdata
  have he := S.aligned_edata
  unfold aligned at hf he
  unfold dataWords
  omega

theorem four_bssWords : 4 * S.bssWords = S.ebss.toNat - S.fbss.toNat := by
  have hf := S.aligned_fbss
  have he := S.aligned_ebss
  unfold aligned at hf he
  unfold bssWords
  omega

end Symbols

/-! ## Pointers -/

/-- A pointer that goes upwards by words meets the end after the words in between, and not
before. -/
theorem pointer_eq_iff {first last : BitVec 32} {n i : ℕ} (hle : first.toNat ≤ last.toNat)
    (hn : 4 * n = last.toNat - first.toNat) (hi : i ≤ n) :
    first + BitVec.ofNat 32 (4 * i) = last ↔ i = n := by
  have hlt := last.isLt
  constructor
  · intro h
    have hnat := congrArg BitVec.toNat h
    rw [BitVec.toNat_add, BitVec.toNat_ofNat] at hnat
    omega
  · rintro rfl
    apply BitVec.eq_of_toNat_eq
    rw [BitVec.toNat_add, BitVec.toNat_ofNat]
    omega

theorem pointer_succ (a : BitVec 32) (i : ℕ) :
    a + BitVec.ofNat 32 (4 * i) + 4 = a + BitVec.ofNat 32 (4 * (i + 1)) := by
  rw [BitVec.add_assoc]
  congr 1
  exact (BitVec.ofNat_add (4 * i) 4).symm

/-! ## The two loops -/

section Loops

variable {L : Type} [DecidableEq L] {text : List (Line L Fn)} {env : Fn → Machine → Machine}
  {k : ℕ} {head done : L} {m : Machine}

/-- What a loop leaves alone. -/
structure Frame (m m' : Machine) : Prop where
  csrs : m'.csrs = m.csrs
  sp : m'.reg sp = m.reg sp

theorem Frame.refl : Frame m m := ⟨rfl, rfl⟩

/-- The state of the copy loop before round `i`. -/
structure CopyInv (S : Symbols) (src dst stop : Reg) (m : Machine) (i : ℕ) (m' : Machine) :
    Prop where
  frame : Frame m m'
  dst : m'.reg dst = S.fdata + BitVec.ofNat 32 (4 * i)
  src : m'.reg src = S.dataRom + BitVec.ofNat 32 (4 * i)
  stop : m'.reg stop = S.edata
  mem : m'.mem = copyWords m.mem S.dataRom S.fdata i

/-- The body of the copy loop; the pointers move in the order `p`, `q`. -/
def copyBody (src dst tmp p q : Reg) : List (Instr Fn) :=
  [.lw tmp 0 src, .sw tmp 0 dst, .addi p p 4, .addi q q 4]

/-- **Step lemma.** -/
theorem CopyInv.round {S : Symbols} {src dst stop tmp p q : Reg} {i : ℕ} {m' : Machine}
    (hregs : [0, sp, src, dst, stop, tmp].Nodup)
    (hpq : p = src ∧ q = dst ∨ p = dst ∧ q = src) (h : CopyInv S src dst stop m i m') :
    ∃ m'', exec env (copyBody src dst tmp p q) m' = some m'' ∧
      CopyInv S src dst stop m (i + 1) m'' := by
  simp only [List.nodup_cons, List.mem_cons, List.not_mem_nil, or_false, not_or, List.nodup_nil,
    and_true, not_false_eq_true] at hregs
  obtain ⟨⟨-, h0src, h0dst, -, h0tmp⟩, ⟨hspsrc, hspdst, -, hsptmp⟩, ⟨hsd, hss, hst⟩,
    ⟨hds, hdt⟩, hstoptmp⟩ := hregs
  have hsrc : aligned (m'.reg src + 0) := by
    rw [add_zero, h.src]
    exact aligned_add S.aligned_dataRom (aligned_ofNat i)
  have hdst : aligned (m'.reg dst + 0) := by
    rw [add_zero, h.dst]
    exact aligned_add S.aligned_fdata (aligned_ofNat i)
  set v := loadWord m'.mem (m'.reg src + 0) with hv
  have hdst' : aligned ((m'.lw tmp 0 src).reg dst + 0) := by
    rwa [Machine.lw, Machine.reg_setReg_of_ne hdt]
  set m₁ := (m'.setReg tmp v).setMem
    (storeWord m'.mem (m'.reg dst + 0) v) with hm₁
  have hexec : exec env (copyBody src dst tmp p q) m' =
      some ((m₁.setReg p (m₁.reg p + 4)).setReg q ((m₁.setReg p (m₁.reg p + 4)).reg q + 4)) := by
    rw [copyBody, exec_cons, Instr.exec, if_pos hsrc, Option.bind_some, exec_cons, Instr.exec,
      if_pos hdst', Option.bind_some, Machine.sw, Machine.lw, Machine.reg_setReg_of_ne hdt,
      Machine.reg_setReg_self (Ne.symm h0tmp)]
    rfl
  have hkeep : ∀ r, r ≠ tmp → m₁.reg r = m'.reg r := fun r hr => Machine.reg_setReg_of_ne hr
  have hmem : m₁.mem = copyWords m.mem S.dataRom S.fdata (i + 1) := by
    rw [hm₁, Machine.setMem_mem, hv, add_zero, add_zero, h.mem, h.src, h.dst]
    rfl
  refine ⟨_, hexec, ?_⟩
  rcases hpq with ⟨rfl, rfl⟩ | ⟨rfl, rfl⟩
  · refine ⟨⟨h.frame.csrs, ?_⟩, ?_, ?_, ?_, hmem⟩
    · rw [Machine.reg_setReg_of_ne hspdst, Machine.reg_setReg_of_ne hspsrc, hkeep _ hsptmp,
        h.frame.sp]
    · rw [Machine.reg_setReg_self (Ne.symm h0dst), Machine.reg_setReg_of_ne (Ne.symm hsd),
        hkeep _ hdt, h.dst, pointer_succ]
    · rw [Machine.reg_setReg_of_ne hsd, Machine.reg_setReg_self (Ne.symm h0src), hkeep _ hst,
        h.src, pointer_succ]
    · rw [Machine.reg_setReg_of_ne (Ne.symm hds), Machine.reg_setReg_of_ne (Ne.symm hss),
        hkeep _ hstoptmp, h.stop]
  · refine ⟨⟨h.frame.csrs, ?_⟩, ?_, ?_, ?_, hmem⟩
    · rw [Machine.reg_setReg_of_ne hspsrc, Machine.reg_setReg_of_ne hspdst, hkeep _ hsptmp,
        h.frame.sp]
    · rw [Machine.reg_setReg_of_ne (Ne.symm hsd), Machine.reg_setReg_self (Ne.symm h0dst),
        hkeep _ hdt, h.dst, pointer_succ]
    · rw [Machine.reg_setReg_self (Ne.symm h0src), Machine.reg_setReg_of_ne hsd, hkeep _ hst,
        h.src, pointer_succ]
    · rw [Machine.reg_setReg_of_ne (Ne.symm hss), Machine.reg_setReg_of_ne (Ne.symm hds),
        hkeep _ hstoptmp, h.stop]

theorem copy_loop {S : Symbols} {src dst stop tmp p q : Reg}
    (hregs : [0, sp, src, dst, stop, tmp].Nodup)
    (hpq : p = src ∧ q = dst ∨ p = dst ∧ q = src)
    (h : loopLines head dst stop done (copyBody src dst tmp p q) <+: text.drop k)
    (hk : position text head = k) (hdst : m.reg dst = S.fdata) (hsrc : m.reg src = S.dataRom)
    (hstop : m.reg stop = S.edata) :
    ∃ m', CopyInv S src dst stop m S.dataWords m' ∧
      Reaches text env (k, m) (position text done, m') := by
  refine Reaches.loop (CopyInv S src dst stop m) h hk (fun i hi m' hm' => ?_)
    (fun m' hm' => ?_) ⟨.refl, by simpa using hdst, by simpa using hsrc, hstop, rfl⟩
  · refine ⟨?_, hm'.round hregs hpq⟩
    rw [hm'.dst, hm'.stop]
    intro heq
    exact hi.ne ((pointer_eq_iff S.data S.four_dataWords hi.le).mp heq)
  · rw [hm'.dst, hm'.stop]
    exact (pointer_eq_iff S.data S.four_dataWords le_rfl).mpr rfl

/-- The state of the loop over `.bss` before round `i`. -/
structure FillInv (S : Symbols) (m : Machine) (i : ℕ) (m' : Machine) : Prop where
  frame : Frame m m'
  dst : m'.reg a0 = S.fbss + BitVec.ofNat 32 (4 * i)
  stop : m'.reg a1 = S.ebss
  mem : m'.mem = fillWords m.mem S.fbss 0 i

def fillBody : List (Instr Fn) := [.sw zero 0 a0, .addi a0 a0 4]

/-- **Step lemma.** -/
theorem FillInv.round {S : Symbols} {i : ℕ} {m' : Machine} (h : FillInv S m i m') :
    ∃ m'', exec env fillBody m' = some m'' ∧ FillInv S m (i + 1) m'' := by
  have hdst : aligned (m'.reg a0 + 0) := by
    rw [add_zero, h.dst]
    exact aligned_add S.aligned_fbss (aligned_ofNat i)
  set m₁ := m'.setMem (storeWord m'.mem (m'.reg a0 + 0) 0) with hm₁
  have hexec : exec env fillBody m' = some (m₁.setReg a0 (m₁.reg a0 + 4)) := by
    rw [fillBody, exec_cons, Instr.exec, if_pos hdst]
    rfl
  refine ⟨_, hexec, ⟨h.frame.csrs, ?_⟩, ?_, ?_, ?_⟩
  · rw [Machine.reg_setReg_of_ne (by decide)]
    exact h.frame.sp
  · rw [Machine.reg_setReg_self (by decide), ← pointer_succ, ← h.dst]
    rfl
  · rw [Machine.reg_setReg_of_ne (by decide)]
    exact h.stop
  · rw [Machine.setReg_mem, hm₁, Machine.setMem_mem, add_zero, h.dst, h.mem]
    rfl

theorem fill_loop {S : Symbols} (h : loopLines head a0 a1 done fillBody <+: text.drop k)
    (hk : position text head = k) (hdst : m.reg a0 = S.fbss) (hstop : m.reg a1 = S.ebss) :
    ∃ m', FillInv S m S.bssWords m' ∧ Reaches text env (k, m) (position text done, m') := by
  refine Reaches.loop (FillInv S m) h hk (fun i hi m' hm' => ?_)
    (fun m' hm' => ?_) ⟨.refl, by simpa using hdst, hstop, rfl⟩
  · refine ⟨?_, hm'.round⟩
    rw [hm'.dst, hm'.stop]
    intro heq
    exact hi.ne ((pointer_eq_iff S.bss S.four_bssWords hi.le).mp heq)
  · rw [hm'.dst, hm'.stop]
    exact (pointer_eq_iff S.bss S.four_bssWords le_rfl).mpr rfl

end Loops

/-! ## Up to `call main` -/

section Runs

variable (S : Symbols) (env : Fn → Machine → Machine) (m : Machine)

/-- What `main` finds. -/
structure Ready (S : Symbols) (stack : BitVec 32) (m m' : Machine) : Prop where
  mem : m'.mem = S.startMem m.mem
  sp : m'.reg sp = stack
  mtvec : m'.csrs mtvec = S.trapEntry
  mie : m'.csrs mie = 0x880

theorem ready_of_loops {stack : BitVec 32} {src dst stop : Reg} {m₁ m₂ m₃ : Machine}
    (hsp : m₁.reg sp = stack) (hmtvec : m₁.csrs mtvec = S.trapEntry) (hmem : m₁.mem = m.mem)
    (hcopy : CopyInv S src dst stop m₁ S.dataWords m₂)
    (hfill : FillInv S ((m₂.setReg a0 S.fbss).setReg a1 S.ebss) S.bssWords m₃) :
    Ready S stack m ((m₃.setReg a0 0x880).setCsr mie 0x880) where
  mem := by
    show m₃.mem = _
    rw [hfill.mem, Symbols.startMem, ← hmem, ← hcopy.mem]
    rfl
  sp := by
    rw [Machine.reg_setCsr, Machine.reg_setReg_of_ne (by decide), hfill.frame.sp,
      Machine.reg_setReg_of_ne (by decide), Machine.reg_setReg_of_ne (by decide), hcopy.frame.sp,
      hsp]
  mtvec := by
    have hne : mtvec ≠ mie := by decide
    show Function.update m₃.csrs mie 0x880 mtvec = _
    rw [Function.update_of_ne hne, hfill.frame.csrs, ← hmtvec, ← hcopy.frame.csrs]
    rfl
  mie := Function.update_self mie 0x880 m₃.csrs

/-- **`crt0-vexriscv.S` comes to `call main`**, the line 25. -/
theorem crt0Vexriscv_reaches_main : ∃ m', Reaches (crt0Vexriscv S) env (0, m) (25, m') ∧
    Ready S (S.fstack + 4) m m' := by
  set m₁ := (((((m.setReg sp (S.fstack + 4)).setReg a0 S.trapEntry).setCsr mtvec
    S.trapEntry).setReg t0 S.dataRom).setReg t1 S.fdata).setReg t2 S.edata with hm₁
  have hinit : Reaches (crt0Vexriscv S) env (0, m) (7, m₁) :=
    (Reaches.label (l := .crtInit) rfl).trans (Reaches.block [.la sp (S.fstack + 4),
      .la a0 S.trapEntry, .csrw mtvec a0, .la t0 S.dataRom, .la t1 S.fdata, .la t2 S.edata]
      ⟨_, rfl⟩ rfl)
  obtain ⟨m₂, hcopy, hloop⟩ : ∃ m', CopyInv S t0 t1 t2 m₁ S.dataWords m' ∧
      Reaches (crt0Vexriscv S) env (7, m₁) (position (crt0Vexriscv S) .l2, m') :=
    copy_loop (by decide) (.inl ⟨rfl, rfl⟩) ⟨_, rfl⟩ rfl rfl rfl rfl
  have hbss : Reaches (crt0Vexriscv S) env (14, m₂)
      (17, (m₂.setReg a0 S.fbss).setReg a1 S.ebss) :=
    (Reaches.label (l := .l2) rfl).trans
      (Reaches.block [.la a0 S.fbss, .la a1 S.ebss] ⟨_, rfl⟩ rfl)
  obtain ⟨m₃, hfill, hloop'⟩ :
      ∃ m', FillInv S ((m₂.setReg a0 S.fbss).setReg a1 S.ebss) S.bssWords m' ∧
        Reaches (crt0Vexriscv S) env (17, (m₂.setReg a0 S.fbss).setReg a1 S.ebss)
          (position (crt0Vexriscv S) .l4, m') :=
    fill_loop ⟨_, rfl⟩ rfl rfl rfl
  have hmain : Reaches (crt0Vexriscv S) env (22, m₃)
      (25, (m₃.setReg a0 0x880).setCsr mie 0x880) :=
    (Reaches.label (l := .l4) rfl).trans
      (Reaches.block [.la a0 0x880, .csrw mie a0] ⟨_, rfl⟩ rfl)
  have hsp : m₁.reg sp = S.fstack + 4 := rfl
  exact ⟨_, hinit.trans (hloop.trans (hbss.trans (hloop'.trans hmain))),
    ready_of_loops S m hsp rfl rfl hcopy hfill⟩

/-- **`crt0.S` comes to `call main`**, the line 27. -/
theorem crt0_reaches_main : ∃ m', Reaches (crt0 S) env (0, m) (27, m') ∧
    Ready S S.fstack m m' := by
  set m₁ := (((((m.setReg sp S.fstack).setReg a0 S.trapEntry).setCsr mtvec
    S.trapEntry).setReg a0 S.fdata).setReg a1 S.edata).setReg a2 S.dataRom with hm₁
  have hinit : Reaches (crt0 S) env (0, m)
      (4, ((m.setReg sp S.fstack).setReg a0 S.trapEntry).setCsr mtvec S.trapEntry) :=
    (Reaches.label (l := .crtInit) rfl).trans (Reaches.block [.la sp S.fstack,
      .la a0 S.trapEntry, .csrw mtvec a0] ⟨_, rfl⟩ rfl)
  have hdata : Reaches (crt0 S) env
      (4, ((m.setReg sp S.fstack).setReg a0 S.trapEntry).setCsr mtvec S.trapEntry) (8, m₁) :=
    (Reaches.label (l := .dataInit) rfl).trans (Reaches.block [.la a0 S.fdata,
      .la a1 S.edata, .la a2 S.dataRom] ⟨_, rfl⟩ rfl)
  obtain ⟨m₂, hcopy, hloop⟩ : ∃ m', CopyInv S a2 a0 a1 m₁ S.dataWords m' ∧
      Reaches (crt0 S) env (8, m₁) (position (crt0 S) .dataDone, m') :=
    copy_loop (by decide) (.inr ⟨rfl, rfl⟩) ⟨_, rfl⟩ rfl rfl rfl rfl
  have hbss : Reaches (crt0 S) env (15, m₂) (19, (m₂.setReg a0 S.fbss).setReg a1 S.ebss) :=
    (Reaches.label (l := .dataDone) rfl).trans ((Reaches.label (l := .bssInit) rfl).trans
      (Reaches.block [.la a0 S.fbss, .la a1 S.ebss] ⟨_, rfl⟩ rfl))
  obtain ⟨m₃, hfill, hloop'⟩ :
      ∃ m', FillInv S ((m₂.setReg a0 S.fbss).setReg a1 S.ebss) S.bssWords m' ∧
        Reaches (crt0 S) env (19, (m₂.setReg a0 S.fbss).setReg a1 S.ebss)
          (position (crt0 S) .bssDone, m') :=
    fill_loop ⟨_, rfl⟩ rfl rfl rfl
  have hmain : Reaches (crt0 S) env (24, m₃) (27, (m₃.setReg a0 0x880).setCsr mie 0x880) :=
    (Reaches.label (l := .bssDone) rfl).trans
      (Reaches.block [.la a0 0x880, .csrw mie a0] ⟨_, rfl⟩ rfl)
  have hsp : m₁.reg sp = S.fstack := rfl
  exact ⟨_, hinit.trans (hdata.trans (hloop.trans (hbss.trans (hloop'.trans hmain)))),
    ready_of_loops S m hsp rfl rfl hcopy hfill⟩

end Runs

/-! ## What `main` finds in memory -/

section Memory

variable {S : Symbols} {mem : ByteMemory}

theorem dataWords_le : 4 * S.dataWords ≤ 2 ^ 32 := by
  have hlt := S.edata.isLt
  rw [S.four_dataWords]
  omega

theorem bssWords_le : 4 * S.bssWords ≤ 2 ^ 32 := by
  have hlt := S.ebss.isLt
  rw [S.four_bssWords]
  omega

theorem startMem_bss {k : ℕ} (hk : k < S.ebss.toNat - S.fbss.toNat) :
    S.startMem mem (S.fbss + BitVec.ofNat 32 k) = 0 := by
  rw [Symbols.startMem, fillWords_fills bssWords_le (by rw [S.four_bssWords]; exact hk)]
  simp [lane]

theorem startMem_data {k : ℕ} (hk : k < S.edata.toNat - S.fdata.toNat) :
    S.startMem mem (S.fdata + BitVec.ofNat 32 k) =
      copyWords mem S.dataRom S.fdata S.dataWords (S.fdata + BitVec.ofNat 32 k) := by
  refine fillWords_apply ?_
  have h₁ := S.data_bss
  have h₂ := S.bss
  have h₃ := S.ebss.isLt
  have h₄ := S.edata.isLt
  rw [S.four_bssWords, BitVec.toNat_sub, BitVec.toNat_add, BitVec.toNat_ofNat]
  omega

theorem startMem_other {x : BitVec 32} (hdata : ¬ (S.fdata.toNat ≤ x.toNat ∧ x.toNat < S.edata.toNat))
    (hbss : ¬ (S.fbss.toNat ≤ x.toNat ∧ x.toNat < S.ebss.toNat)) : S.startMem mem x = mem x := by
  have h₁ := S.data
  have h₂ := S.bss
  have hx := x.isLt
  have hfar : ∀ {a b : BitVec 32}, a.toNat ≤ b.toNat → ¬ (a.toNat ≤ x.toNat ∧ x.toNat < b.toNat) →
      b.toNat - a.toNat ≤ (x - a).toNat := by
    intro a b hab hout
    have hb := b.isLt
    rw [BitVec.toNat_sub]
    omega
  rw [Symbols.startMem, fillWords_apply (by rw [S.four_bssWords]; exact hfar h₂ hbss),
    copyWords_apply (by rw [S.four_dataWords]; exact hfar h₁ hdata)]

/-- `.data` begins at the place its initial values are loaded at, or not within them. -/
def Copyable (S : Symbols) : Prop :=
  S.fdata = S.dataRom ∨ S.edata.toNat - S.fdata.toNat ≤ (S.fdata - S.dataRom).toNat

instance (S : Symbols) : Decidable (Copyable S) := inferInstanceAs (Decidable (_ ∨ _))

theorem startMem_data_iff : (∀ mem : ByteMemory, ∀ k < S.edata.toNat - S.fdata.toNat,
    S.startMem mem (S.fdata + BitVec.ofNat 32 k) = mem (S.dataRom + BitVec.ofNat 32 k)) ↔
      Copyable S := by
  have h4 : (S.fdata - S.dataRom).toNat % 4 = 0 := by
    have hdst := S.aligned_fdata
    have hsrc := S.aligned_dataRom
    unfold aligned at hdst hsrc
    rw [BitVec.toNat_sub]
    omega
  have hiff := copyWords_iff (n := S.dataWords) dataWords_le h4
  rw [S.four_dataWords] at hiff
  rw [Copyable, ← hiff]
  constructor
  · intro h mem k hk
    rw [← startMem_data hk, h mem k hk]
  · intro h mem k hk
    rw [startMem_data hk, h mem k hk]

end Memory

/-! ## Start-up -/

/-- What `main` should find: `.data` with its initial values, `.bss` zero, everything else as it
was loaded, and the stack and the interrupts set up. -/
structure Initialised (S : Symbols) (stack : BitVec 32) (m m' : Machine) : Prop where
  data : ∀ k < S.edata.toNat - S.fdata.toNat,
    m'.mem (S.fdata + BitVec.ofNat 32 k) = m.mem (S.dataRom + BitVec.ofNat 32 k)
  bss : ∀ k < S.ebss.toNat - S.fbss.toNat, m'.mem (S.fbss + BitVec.ofNat 32 k) = 0
  other : ∀ x : BitVec 32, ¬ (S.fdata.toNat ≤ x.toNat ∧ x.toNat < S.edata.toNat) →
    ¬ (S.fbss.toNat ≤ x.toNat ∧ x.toNat < S.ebss.toNat) → m'.mem x = m.mem x
  sp : m'.reg sp = stack
  mtvec : m'.csrs mtvec = S.trapEntry
  mie : m'.csrs mie = 0x880

section StartUp

variable {L : Type} [DecidableEq L] {text : List (Line L Fn)} {env : Fn → Machine → Machine}

/-- The text ends with the call of `main` in line `k` and an endless loop. -/
structure EndsAt (text : List (Line L Fn)) (infinitLoop : L) (k : ℕ) : Prop where
  main : text[k]? = some (.instr (.call .main))
  label : text[k + 1]? = some (.label infinitLoop)
  j : text[k + 2]? = some (.j infinitLoop)
  position : position text infinitLoop = k + 1

theorem EndsAt.loops {l : L} {k : ℕ} (h : EndsAt text l k) {s s' : ℕ × Machine}
    (hs : s.1 = k + 1 ∨ s.1 = k + 2) (hr : Reaches text env s s') :
    s'.1 = k + 1 ∨ s'.1 = k + 2 := by
  induction hr with
  | refl => exact hs
  | tail _ hstep ih =>
    unfold step at hstep
    rcases ih with hk | hk
    · rw [hk, h.label] at hstep
      cases hstep
      exact .inr rfl
    · rw [hk, h.j] at hstep
      cases hstep
      exact .inl h.position

theorem EndsAt.unique {l : L} {k : ℕ} (h : EndsAt text l k) {s : ℕ × Machine} {m m' : Machine}
    (hm : Reaches text env s (k, m)) (hm' : Reaches text env s (k, m')) : m = m' := by
  have hone : ∀ m m', Reaches text env (k, m) (k, m') → m = m' := by
    intro m m' hr
    rcases Relation.ReflTransGen.cases_head hr with heq | ⟨s', hstep, hrest⟩
    · exact congrArg Prod.snd heq
    · have hnext : step text env (k, m) = some (k + 1, env .main m) := by
        simp [step, h.main, Instr.exec]
      cases hnext.symm.trans hstep
      rcases h.loops (.inl rfl) hrest with hk | hk <;> simp at hk
  have hdet : Relator.RightUnique fun s s' : ℕ × Machine => step text env s = some s' :=
    fun _ _ _ h₁ h₂ => Option.some.inj (h₁.symm.trans h₂)
  rcases Relation.ReflTransGen.total_of_right_unique hdet hm hm' with hr | hr
  · exact hone m m' hr
  · exact (hone m' m hr).symm

theorem initialises_iff {S : Symbols} {l : L} {k : ℕ} {stack : BitVec 32} (h : EndsAt text l k)
    (hreach : ∀ env m, ∃ m', Reaches text env (0, m) (k, m') ∧ Ready S stack m m') :
    (∀ env m, ∃ m', Reaches text env (0, m) (k, m') ∧ Initialised S stack m m') ↔
      Copyable S := by
  rw [← startMem_data_iff]
  constructor
  · intro hinit mem j hj
    obtain ⟨m', hr', hm'⟩ := hinit (fun _ m => m) ⟨fun _ => 0, fun _ => 0, mem⟩
    obtain ⟨m'', hr'', hm''⟩ := hreach (fun _ m => m) ⟨fun _ => 0, fun _ => 0, mem⟩
    have hdata := hm'.data j hj
    rw [h.unique hr' hr'', hm''.mem] at hdata
    exact hdata
  · intro hcopy env m
    obtain ⟨m', hr, hm⟩ := hreach env m
    refine ⟨m', hr, ?_, ?_, ?_, hm.sp, hm.mtvec, hm.mie⟩
    · intro j hj
      rw [hm.mem, hcopy m.mem j hj]
    · intro j hj
      rw [hm.mem, startMem_bss hj]
    · intro x hdata hbss
      rw [hm.mem, startMem_other hdata hbss]

end StartUp

/-- **`crt0-vexriscv.S`** comes to `call main` on every machine. It starts the program, with
whatever was loaded, exactly if `.data` is loaded at its own place or does not begin within its
initial values. -/
theorem crt0Vexriscv_initialises_iff (S : Symbols) :
    (∀ env m, ∃ m', Reaches (crt0Vexriscv S) env (0, m) (25, m') ∧
      Ready S (S.fstack + 4) m m') ∧
    ((∀ env m, ∃ m', Reaches (crt0Vexriscv S) env (0, m) (25, m') ∧
      Initialised S (S.fstack + 4) m m') ↔ Copyable S) :=
  ⟨crt0Vexriscv_reaches_main S,
    initialises_iff (l := .infinitLoop) ⟨rfl, rfl, rfl, rfl⟩ (crt0Vexriscv_reaches_main S)⟩

/-- A start that succeeds, and one that overwrites the end of the initial values. -/
theorem crt0Vexriscv_initialises_iff_layouts :
    (∃ m', Reaches (crt0Vexriscv inPlace) (fun _ m => m) (0, ⟨fun _ => 0, fun _ => 0, fun _ => 7⟩)
      (25, m') ∧ m'.reg sp = 0x40010000 ∧ m'.mem 0x40001010 = 7 ∧ m'.mem 0x40001030 = 0) ∧
    ¬ ∀ env m, ∃ m', Reaches (crt0Vexriscv overlapping) env (0, m) (25, m') ∧
      Initialised overlapping (overlapping.fstack + 4) m m' := by
  obtain ⟨m', hreach, hm⟩ := (crt0Vexriscv_initialises_iff inPlace).2.mpr (by decide)
    (fun _ m => m) ⟨fun _ => 0, fun _ => 0, fun _ => 7⟩
  refine ⟨⟨m', hreach, hm.sp, hm.data 8 (by decide), hm.bss 16 (by decide)⟩, fun h => ?_⟩
  exact absurd ((crt0Vexriscv_initialises_iff overlapping).2.mp h) (by decide)

/-- **`crt0.S`** likewise. -/
theorem crt0_initialises_iff (S : Symbols) :
    (∀ env m, ∃ m', Reaches (crt0 S) env (0, m) (27, m') ∧ Ready S S.fstack m m') ∧
    ((∀ env m, ∃ m', Reaches (crt0 S) env (0, m) (27, m') ∧ Initialised S S.fstack m m') ↔
      Copyable S) :=
  ⟨crt0_reaches_main S,
    initialises_iff (l := .infinitLoop) ⟨rfl, rfl, rfl, rfl⟩ (crt0_reaches_main S)⟩

theorem crt0_initialises_iff_layouts :
    (∃ m', Reaches (crt0 inPlace) (fun _ m => m) (0, ⟨fun _ => 0, fun _ => 0, fun _ => 7⟩)
      (27, m') ∧ m'.reg sp = 0x4000fffc ∧ m'.mem 0x40001010 = 7 ∧ m'.mem 0x40001030 = 0) ∧
    ¬ ∀ env m, ∃ m', Reaches (crt0 overlapping) env (0, m) (27, m') ∧
      Initialised overlapping overlapping.fstack m m' := by
  obtain ⟨m', hreach, hm⟩ := (crt0_initialises_iff inPlace).2.mpr (by decide)
    (fun _ m => m) ⟨fun _ => 0, fun _ => 0, fun _ => 7⟩
  refine ⟨⟨m', hreach, hm.sp, hm.data 8 (by decide), hm.bss 16 (by decide)⟩, fun h => ?_⟩
  exact absurd ((crt0_initialises_iff overlapping).2.mp h) (by decide)

end CfuPlayground.Crt0
