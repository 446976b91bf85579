import Mathlib.Data.Char
import Mathlib.Data.List.Lex
import Mathlib.Data.List.Sort
import CfuPlayground.Lib.Dict

/-!
# On-demand CPU variants

`build_cpu_variant_if_needed` of `patch_cpu_variant.py`. An item of the variant string that
contains `cfu` anywhere is taken as a key of its own before its name is checked, so it becomes a
twelfth parameter, and an argument that the generator may take: `cfuRespReadyAlways` is one. A
build that succeeds is faithful exactly if no such item is there (`faithful_iff`).
-/

namespace CfuPlayground.CpuVariant

open Lib

/-! ## The source -/

abbrev Text := List Char

/-- The defaults of `cpu_params`. -/
def cpuParams : Dict Text Text where
  items :=
    [("csrPluginConfig".toList, "mcycle".toList), ("bypass".toList, "true".toList),
      ("cfu".toList, "false".toList), ("dCacheSize".toList, "4096".toList),
      ("hardwareDiv".toList, "false".toList), ("iCacheSize".toList, "4096".toList),
      ("mulDiv".toList, "true".toList), ("prediction".toList, "none".toList),
      ("safe".toList, "true".toList), ("singleCycleShift".toList, "true".toList),
      ("singleCycleMulDiv".toList, "true".toList)]
  nodup := by decide

/-- How a variant is refused. -/
inductive Rejection
  /-- `exit()`, after a line is printed. -/
  | exit (printed : Text)
  /-- `ValueError` with its text. -/
  | valueError (text : Text)
  /-- The `ValueError` of `param_name, val = …` for a list of another length. -/
  | unpack (parts : ℕ)
  /-- `OSError` with its text. -/
  | osError (text : Text)
  /-- The `OSError` of `copyfile`. -/
  | copyfile
  deriving DecidableEq

/-- `"cfu" in param`. -/
def HasCfu (param : Text) : Prop := "cfu".toList <:+: param

instance (param : Text) : Decidable (HasCfu param) := inferInstanceAs (Decidable (_ <:+: _))

/-- The body of the loop over the items. -/
def assign (params : Dict Text Text) (param : Text) : Except Rejection (Dict Text Text) :=
  if HasCfu param then .ok (params.set param "true".toList)
  else
    match param.splitOn ':' with
    | [paramName, val] =>
      if paramName ∈ params.keys then .ok (params.set paramName val)
      else .error (.valueError (paramName ++ " parameter not recognized.".toList))
    | parts => .error (.unpack parts.length)

def parse (variant : Text) : Except Rejection (Dict Text Text) :=
  let params := variant.splitOn '+'
  if params.head? = some "generate".toList then params.tail.foldlM assign cpuParams
  else .error
    (.exit "ERROR: Need generate keyword to begin on demand Vexriscv build.".toList)

/-- `sorted(cpu_params.items())`; the keys are distinct, so the values are never compared. -/
def sortedItems (params : Dict Text Text) : List (Text × Text) :=
  params.items.insertionSort fun p q => p.1 ≤ q.1

/-- `f"--{param_name}={val}"`. -/
def genArg (p : Text × Text) : Text := "--".toList ++ p.1 ++ "=".toList ++ p.2

/-- `cpu_filename_base`, from the sorted items. -/
def filenameBase (items : List (Text × Text)) : Text :=
  items.foldl (fun base p => base ++ "_".toList ++ p.1 ++ "-".toList ++ p.2) "VexRiscv".toList

/-- `gcc_flags`. -/
def gccFlags (params : Dict Text Text) : Text :=
  let noMul := params.get? "mulDiv".toList = some "false".toList
  let arch := if noMul then "rv32i".toList else "rv32im".toList
  let hwDiv :=
    if noMul ∨ params.get? "hardwareDiv".toList = some "false".toList then "  -mno-div".toList
    else []
  "-march=".toList ++ arch ++ " -mabi=ilp32 ".toList ++ hwDiv

/-- What the generator is called with and what is entered into the tables of LiteX. -/
structure Build where
  params : Dict Text Text
  genArgs : List Text
  cpuFilenameBase : Text
  gccFlags : Text

def build (params : Dict Text Text) : Build :=
  let items := sortedItems params
  let base := filenameBase items
  ⟨params, items.map genArg ++ ["--outputFile=".toList ++ base], base, gccFlags params⟩

/-- What `build_cpu_variant_if_needed` asks of the machine that it runs on. -/
structure Host where
  /-- The variants in the tables of LiteX. -/
  known : Text → Bool
  /-- `os.path.exists`, of a file in `soc/vexriscv`. -/
  pathExists : Text → Bool
  /-- `os.system`, of the `sbt` command with these arguments. -/
  sbt : List Text → ℤ
  /-- Whether `copyfile` of a file in `soc/vexriscv` succeeds. -/
  copies : Text → Bool

/-- `cpu_filename`. -/
def Build.cpuFilename (b : Build) : Text := b.cpuFilenameBase ++ ".v".toList

/-- From the test for the file on. -/
def generate (h : Host) (b : Build) : Except Rejection Build :=
  if !h.pathExists b.cpuFilename ∧ h.sbt b.genArgs ≠ 0 then
    .error (.osError "Failed to run sbt".toList)
  else if h.copies b.cpuFilename then .ok b
  else .error .copyfile

/-- `build_cpu_variant_if_needed`; for a variant in the tables there is nothing to build. -/
def buildCpuVariantIfNeeded (h : Host) (variant : Text) : Except Rejection (Option Build) :=
  if h.known variant then .ok none
  else (parse variant).bind fun params => (generate h (build params)).map some

/-! ## What a variant says -/

/-- The items of a variant. -/
def itemsOf (variant : Text) : List Text := (variant.splitOn '+').tail

theorem itemsOf_intercalate {items : List Text} (hitems : ∀ item ∈ items, '+' ∉ item) :
    itemsOf (['+'].intercalate ("generate".toList :: items)) = items := by
  rw [itemsOf, List.splitOn_intercalate]
  · rfl
  · rw [List.forall_mem_cons]
    exact ⟨by decide, hitems⟩
  · exact List.cons_ne_nil _ _

/-- What an item assigns: the bare `cfu` is `cfu = true`. -/
def assignment (item : Text) : Option (Text × Text) :=
  if item = "cfu".toList then some ("cfu".toList, "true".toList)
  else
    match item.splitOn ':' with
    | [name, val] => some (name, val)
    | _ => none

/-- The value that the last assignment to `name` gives, or its default. -/
def finalValue (items : List Text) (name : Text) : Option Text :=
  ((items.filterMap assignment).reverse.lookup name).or (cpuParams.get? name)

/-- The known names in the order of the generator's arguments. -/
def sortedNames : List Text := cpuParams.keys.insertionSort (· ≤ ·)

/-- If a build results, its parameters are the known ones, each with its final value, and each is
one argument of the generator. -/
def Faithful (h : Host) (variant : Text) : Prop :=
  ∀ b, buildCpuVariantIfNeeded h variant = .ok (some b) →
    (∀ name, name ∈ b.params.keys ↔ name ∈ cpuParams.keys) ∧
    (∀ name ∈ cpuParams.keys, b.params.get? name = finalValue (itemsOf variant) name) ∧
    b.genArgs = sortedNames.map (fun name =>
      genArg (name, (finalValue (itemsOf variant) name).getD [])) ++
        ["--outputFile=".toList ++ b.cpuFilenameBase]

/-- An item that the loop refuses: it has no `cfu` in it, and is not `name:value` with a known
name. -/
def Malformed (item : Text) : Prop :=
  ¬ HasCfu item ∧ ∀ name val, item.splitOn ':' = [name, val] → name ∉ cpuParams.keys

/-- The file is there or the generator makes it, and it can be copied. -/
def Host.Makes (h : Host) (b : Build) : Prop :=
  (h.pathExists b.cpuFilename = true ∨ h.sbt b.genArgs = 0) ∧ h.copies b.cpuFilename = true

/-! ## One item -/

variable {params params' : Dict Text Text} {item : Text} {items : List Text}

theorem assign_eq_ok_iff : assign params item = .ok params' ↔
    (HasCfu item ∧ params' = params.set item "true".toList) ∨
      ¬ HasCfu item ∧ ∃ name val, item.splitOn ':' = [name, val] ∧ name ∈ params.keys ∧
        params' = params.set name val := by
  unfold assign
  by_cases h : HasCfu item
  · rw [if_pos h, Except.ok.injEq]
    simp [h, eq_comm]
  · rw [if_neg h]
    simp only [h, false_and, not_false_eq_true, true_and, false_or]
    split
    · next name val hsplit =>
      rw [hsplit]
      by_cases hname : name ∈ params.keys
      · rw [if_pos hname, Except.ok.injEq]
        simp [hname, eq_comm]
      · rw [if_neg hname]
        simp [hname]
    · next parts hsplit =>
      constructor
      · rintro ⟨⟩
      · rintro ⟨name, val, heq, -⟩
        exact absurd heq (hsplit name val)

theorem not_hasCfu_of_split (hitem : ¬ HasCfu item) {name val : Text}
    (h : item.splitOn ':' = [name, val]) : ¬ HasCfu name := by
  have hjoin : [':'].intercalate (item.splitOn ':') = item := List.intercalate_splitOn ':'
  rw [h] at hjoin
  intro hname
  apply hitem
  apply hname.trans
  rw [← hjoin]
  exact ⟨[], [':'] ++ val, by simp⟩

theorem eq_cfu_of_known {name : Text} (hname : name ∈ cpuParams.keys) (h : HasCfu name) :
    name = "cfu".toList := by
  have hall : ∀ name ∈ cpuParams.keys, HasCfu name → name = "cfu".toList := by
    decide +kernel
  exact hall name hname h

/-- The keys are the known ones, but for keys with `cfu` in them. -/
def Extends (params : Dict Text Text) : Prop :=
  ∀ name, ¬ HasCfu name → (name ∈ params.keys ↔ name ∈ cpuParams.keys)

theorem extends_assign (hparams : Extends params) (h : assign params item = .ok params') :
    Extends params' := by
  intro name hname
  rw [assign_eq_ok_iff] at h
  rcases h with ⟨hcfu, rfl⟩ | ⟨-, n, val, -, hn, rfl⟩
  · have hne : name ≠ item := fun e => hname (e ▸ hcfu)
    rw [Dict.mem_keys_set, ← hparams name hname]
    exact ⟨fun h => h.resolve_left hne, Or.inr⟩
  · rw [Dict.keys_set_of_mem hn]
    exact hparams name hname

theorem assign_ok_iff (hparams : Extends params) :
    (∃ params', assign params item = .ok params') ↔ ¬ Malformed item := by
  constructor
  · rintro ⟨params', h⟩ ⟨hcfu, hmalformed⟩
    rw [assign_eq_ok_iff] at h
    rcases h with ⟨hcfu', -⟩ | ⟨-, n, val, hsplit, hn, -⟩
    · exact hcfu hcfu'
    · exact hmalformed n val hsplit ((hparams n (not_hasCfu_of_split hcfu hsplit)).mp hn)
  · intro h
    simp only [assign_eq_ok_iff]
    by_cases hcfu : HasCfu item
    · exact ⟨_, Or.inl ⟨hcfu, rfl⟩⟩
    · simp only [Malformed, hcfu, not_false_eq_true, true_and, not_forall, not_not] at h
      obtain ⟨n, val, hsplit, hn⟩ := h
      have hmem := (hparams n (not_hasCfu_of_split hcfu hsplit)).mpr hn
      exact ⟨_, Or.inr ⟨hcfu, n, val, hsplit, hmem, rfl⟩⟩

/-! ## All items -/

theorem foldlM_cons_eq_ok_iff :
    (item :: items).foldlM assign params = .ok params' ↔
      ∃ next, assign params item = .ok next ∧ items.foldlM assign next = .ok params' := by
  rw [List.foldlM_cons]
  cases h : assign params item with
  | error e =>
    constructor
    · rintro ⟨⟩
    · rintro ⟨next, ⟨⟩, -⟩
  | ok next =>
    constructor
    · exact fun h => ⟨next, rfl, h⟩
    · rintro ⟨next', h, hrest⟩
      cases h
      exact hrest

theorem run_ok_iff (hparams : Extends params) :
    (∃ params', items.foldlM assign params = .ok params') ↔ ∀ item ∈ items, ¬ Malformed item := by
  induction items generalizing params with
  | nil =>
    constructor
    · rintro - item ⟨⟩
    · exact fun _ => ⟨params, rfl⟩
  | cons item items ih =>
    simp only [foldlM_cons_eq_ok_iff, List.forall_mem_cons]
    constructor
    · rintro ⟨params', next, h, hrest⟩
      exact ⟨(assign_ok_iff hparams).mp ⟨next, h⟩, (ih (extends_assign hparams h)).mp ⟨_, hrest⟩⟩
    · rintro ⟨hitem, hitems⟩
      obtain ⟨next, h⟩ := (assign_ok_iff hparams).mpr hitem
      obtain ⟨params', hrest⟩ := (ih (extends_assign hparams h)).mpr hitems
      exact ⟨params', next, h, hrest⟩

theorem mem_keys_run (h : items.foldlM assign params = .ok params') (name : Text) :
    name ∈ params'.keys ↔ name ∈ params.keys ∨ name ∈ items ∧ HasCfu name := by
  induction items generalizing params with
  | nil =>
    cases h
    simp
  | cons item items ih =>
    obtain ⟨next, hnext, hrest⟩ := foldlM_cons_eq_ok_iff.mp h
    rw [ih hrest, List.mem_cons]
    rw [assign_eq_ok_iff] at hnext
    rcases hnext with ⟨hcfu, rfl⟩ | ⟨hcfu, n, val, -, hn, rfl⟩
    · rw [Dict.mem_keys_set]
      constructor
      · rintro ((rfl | hmem) | hmem)
        · exact Or.inr ⟨Or.inl rfl, hcfu⟩
        · exact Or.inl hmem
        · exact Or.inr ⟨Or.inr hmem.1, hmem.2⟩
      · rintro (hmem | ⟨rfl | hmem, hname⟩)
        · exact Or.inl (Or.inr hmem)
        · exact Or.inl (Or.inl rfl)
        · exact Or.inr ⟨hmem, hname⟩
    · rw [Dict.keys_set_of_mem hn]
      constructor
      · rintro (hmem | hmem)
        · exact Or.inl hmem
        · exact Or.inr ⟨Or.inr hmem.1, hmem.2⟩
      · rintro (hmem | ⟨rfl | hmem, hname⟩)
        · exact Or.inl hmem
        · exact absurd hname hcfu
        · exact Or.inr ⟨hmem, hname⟩

/-- The items with `cfu` in them are the bare `cfu`. -/
def CfuExact (items : List Text) : Prop := ∀ item ∈ items, HasCfu item → item = "cfu".toList

instance (items : List Text) : Decidable (CfuExact items) :=
  inferInstanceAs (Decidable (∀ item ∈ items, _))

theorem assign_assignment (hexact : HasCfu item → item = "cfu".toList)
    (hkeys : "cfu".toList ∈ params.keys) (h : assign params item = .ok params') :
    ∃ name val, assignment item = some (name, val) ∧ name ∈ params.keys ∧
      params' = params.set name val := by
  rw [assign_eq_ok_iff] at h
  rcases h with ⟨hcfu, rfl⟩ | ⟨hcfu, n, val, hsplit, hn, rfl⟩
  · have hitem := hexact hcfu
    subst hitem
    exact ⟨_, _, if_pos rfl, hkeys, rfl⟩
  · have hne : item ≠ "cfu".toList := by
      rintro rfl
      exact hcfu (List.infix_refl _)
    refine ⟨n, val, ?_, hn, rfl⟩
    rw [assignment, if_neg hne, hsplit]

/-- Without other items, the keys stay and each parameter gets its last assignment. -/
theorem run_exact (hexact : CfuExact items) (hkeys : "cfu".toList ∈ params.keys)
    (h : items.foldlM assign params = .ok params') :
    params'.keys = params.keys ∧ ∀ name, params'.get? name =
      ((items.filterMap assignment).reverse.lookup name).or (params.get? name) := by
  induction items generalizing params with
  | nil =>
    cases h
    exact ⟨rfl, fun name => rfl⟩
  | cons item items ih =>
    rw [CfuExact, List.forall_mem_cons] at hexact
    obtain ⟨next, hnext, hrest⟩ := foldlM_cons_eq_ok_iff.mp h
    obtain ⟨n, val, hassign, hn, rfl⟩ := assign_assignment hexact.1 hkeys hnext
    have hsame := Dict.keys_set_of_mem hn val
    obtain ⟨hkeys', hget⟩ := ih hexact.2 (hsame ▸ hkeys) hrest
    refine ⟨hkeys'.trans hsame, fun name => ?_⟩
    rw [hget, List.filterMap_cons_some hassign, List.reverse_cons, List.lookup_append,
      Option.or_assoc, Dict.get?_set]
    by_cases hname : name = n
    · rw [if_pos hname, hname, List.lookup_cons_self]
      rfl
    · have hne : (name == n) = false := beq_false_of_ne hname
      rw [if_neg hname, List.lookup_cons, hne]
      rfl

/-! ## The build -/

theorem parse_eq_ok_iff {variant : Text} : parse variant = .ok params ↔
    (variant.splitOn '+').head? = some "generate".toList ∧
      (itemsOf variant).foldlM assign cpuParams = .ok params := by
  unfold parse
  by_cases h : (variant.splitOn '+').head? = some "generate".toList
  · rw [if_pos h]
    exact ⟨fun hrun => ⟨h, hrun⟩, fun hrun => hrun.2⟩
  · rw [if_neg h]
    constructor
    · rintro ⟨⟩
    · exact fun hrun => absurd hrun.1 h

theorem generate_eq_ok_iff {h : Host} {a b : Build} :
    generate h a = .ok b ↔ h.Makes a ∧ b = a := by
  unfold generate Host.Makes
  cases h.pathExists a.cpuFilename <;> cases h.copies a.cpuFilename <;>
    by_cases hsbt : h.sbt a.genArgs = 0 <;> simp [hsbt, eq_comm]

theorem build_eq_some_iff {h : Host} {variant : Text} {b : Build} :
    buildCpuVariantIfNeeded h variant = .ok (some b) ↔
      h.known variant = false ∧
        ∃ params, parse variant = .ok params ∧ h.Makes (build params) ∧ b = build params := by
  unfold buildCpuVariantIfNeeded
  cases hknown : h.known variant with
  | true => simp
  | false =>
    cases hparse : parse variant with
    | error e => simp [Except.bind]
    | ok params =>
      have hgenerate := generate_eq_ok_iff (h := h) (a := build params) (b := b)
      cases hgen : generate h (build params) with
      | error e =>
        rw [hgen] at hgenerate
        simp [Except.bind, Except.map, hgen, ← hgenerate]
      | ok b' =>
        rw [hgen, Except.ok.injEq] at hgenerate
        simp [Except.bind, Except.map, hgen, ← hgenerate]

theorem genArgs_build (params : Dict Text Text) : (build params).genArgs =
    (sortedItems params).map genArg ++ ["--outputFile=".toList ++ (build params).cpuFilenameBase] :=
  rfl

theorem extends_cpuParams : Extends cpuParams := fun _ _ => Iff.rfl

theorem cfu_mem_cpuParams : "cfu".toList ∈ cpuParams.keys := by decide

/-- The value of a known parameter, for a variant without other items with `cfu`. -/
theorem get?_run {variant : Text} (hexact : CfuExact (itemsOf variant))
    (h : (itemsOf variant).foldlM assign cpuParams = .ok params) :
    params.keys = cpuParams.keys ∧
      ∀ name, params.get? name = finalValue (itemsOf variant) name :=
  run_exact hexact cfu_mem_cpuParams h

theorem sortedItems_run {variant : Text} (hexact : CfuExact (itemsOf variant))
    (h : (itemsOf variant).foldlM assign cpuParams = .ok params) :
    sortedItems params = sortedNames.map fun name =>
      (name, (finalValue (itemsOf variant) name).getD []) := by
  obtain ⟨hkeys, hget⟩ := get?_run hexact h
  have hitems : params.items =
      cpuParams.keys.map fun name => (name, (finalValue (itemsOf variant) name).getD []) := by
    rw [Dict.items_eq params [], hkeys]
    apply List.map_congr_left
    intro name _
    rw [hget]
  rw [sortedItems, hitems, sortedNames]
  exact (List.map_insertionSort (r := fun a b => a ≤ b) (s := fun p q : Text × Text => p.1 ≤ q.1)
    _ _ fun a _ b _ => Iff.rfl).symm

theorem faithful_iff_exact (h : Host) (variant : Text) : Faithful h variant ↔
    h.known variant = true ∨ (variant.splitOn '+').head? ≠ some "generate".toList ∨
      (∃ item ∈ itemsOf variant, Malformed item) ∨ CfuExact (itemsOf variant) ∨
        ∃ params, parse variant = .ok params ∧ ¬ h.Makes (build params) := by
  constructor
  · intro hfaithful
    by_contra hnot
    simp only [not_or, Bool.not_eq_true, not_not, not_exists, not_and] at hnot
    obtain ⟨hknown, hhead, hitems, hexact, hmakes⟩ := hnot
    obtain ⟨params, hrun⟩ := (run_ok_iff extends_cpuParams).mpr hitems
    have hparse := parse_eq_ok_iff.mpr ⟨hhead, hrun⟩
    have hbuild := build_eq_some_iff.mpr ⟨hknown, params, hparse, hmakes params hparse, rfl⟩
    apply hexact
    intro item hitem hcfu
    have hkey := (mem_keys_run hrun item).mpr (Or.inr ⟨hitem, hcfu⟩)
    exact eq_cfu_of_known (((hfaithful _ hbuild).1 item).mp hkey) hcfu
  · intro hcond b hb
    obtain ⟨hknown, params, hparse, hmakes, rfl⟩ := build_eq_some_iff.mp hb
    obtain ⟨hhead, hrun⟩ := parse_eq_ok_iff.mp hparse
    have hitems := (run_ok_iff extends_cpuParams).mp ⟨params, hrun⟩
    have hexact : CfuExact (itemsOf variant) := by
      rcases hcond with hc | hc | ⟨item, hitem, hc⟩ | hc | ⟨params', hparse', hc⟩
      · rw [hknown] at hc
        cases hc
      · exact absurd hhead hc
      · exact absurd hc (hitems item hitem)
      · exact hc
      · rw [hparse, Except.ok.injEq] at hparse'
        rw [← hparse'] at hc
        exact absurd hmakes hc
    obtain ⟨hkeys, hget⟩ := get?_run hexact hrun
    refine ⟨fun name => ?_, fun name _ => hget name, ?_⟩
    · change name ∈ params.keys ↔ _
      rw [hkeys]
    · rw [genArgs_build, sortedItems_run hexact hrun, List.map_map]
      simp only [Function.comp_def]

theorem filenameBase_run {variant : Text} (hexact : CfuExact (itemsOf variant))
    (h : (itemsOf variant).foldlM assign cpuParams = .ok params) :
    (build params).cpuFilenameBase = filenameBase (sortedNames.map fun name =>
      (name, (finalValue (itemsOf variant) name).getD [])) := by
  rw [← sortedItems_run hexact h]
  rfl

/-- **When a variant is built faithfully**: it is not built at all, or refused, or the generator
or the copying fails, or it has no other item with `cfu` in it than the bare one. Of the last kind,
two that assign the same values have one file. -/
theorem faithful_iff (h : Host) :
    (∀ variant, Faithful h variant ↔
      h.known variant = true ∨ (variant.splitOn '+').head? ≠ some "generate".toList ∨
        (∃ item ∈ itemsOf variant, Malformed item) ∨ CfuExact (itemsOf variant) ∨
          ∃ params, parse variant = .ok params ∧ ¬ h.Makes (build params)) ∧
      ∀ variant variant' b b', CfuExact (itemsOf variant) → CfuExact (itemsOf variant') →
        buildCpuVariantIfNeeded h variant = .ok (some b) →
        buildCpuVariantIfNeeded h variant' = .ok (some b') →
        (∀ name ∈ cpuParams.keys,
          finalValue (itemsOf variant) name = finalValue (itemsOf variant') name) →
        b.cpuFilenameBase = b'.cpuFilenameBase := by
  refine ⟨faithful_iff_exact h, ?_⟩
  intro variant variant' b b' hexact hexact' hb hb' hsame
  obtain ⟨-, params, hparse, -, rfl⟩ := build_eq_some_iff.mp hb
  obtain ⟨-, params', hparse', -, rfl⟩ := build_eq_some_iff.mp hb'
  rw [filenameBase_run hexact (parse_eq_ok_iff.mp hparse).2,
    filenameBase_run hexact' (parse_eq_ok_iff.mp hparse').2]
  congr 1
  apply List.map_congr_left
  intro name hname
  rw [hsame name ((List.perm_insertionSort _ _).mem_iff.mp hname)]

/-- The options of `GenCoreDefault.scala`. -/
def generatorOptions : List Text :=
  ["debug".toList, "iCacheSize".toList, "iBytesPerLine".toList, "dCacheSize".toList,
    "dBytesPerLine".toList, "pmpRegions".toList, "pmpGranularity".toList, "mulDiv".toList,
    "cfu".toList, "fpu".toList, "safe".toList, "perfCSRs".toList, "atomics".toList,
    "compressedGen".toList, "singleCycleMulDiv".toList, "hardwareDiv".toList,
    "singleCycleShift".toList, "cfuRespReadyAlways".toList, "relaxedPcCalculation".toList,
    "bypass".toList, "externalInterruptArray".toList,
    "dBusCachedRelaxedMemoryTranslationRegister".toList, "dBusCachedEarlyWaysHits".toList,
    "resetVector".toList, "machineTrapVector".toList, "memoryAndWritebackStage".toList,
    "prediction".toList, "outputFile".toList, "csrPluginConfig".toList]

/-- A machine without a file in `soc/vexriscv`. The generator takes the arguments whose names are
its options. -/
def freshHost : Host where
  known _ := false
  pathExists _ := false
  sbt args :=
    if args.all fun arg => (arg.drop 2).takeWhile (· ≠ '=') ∈ generatorOptions then 0 else 1
  copies _ := true

/-- An option of the generator that is no parameter becomes one, because `cfu` is in its name. -/
theorem faithful_iff_fails : ¬ Faithful freshHost "generate+cfuRespReadyAlways".toList := by
  have hitems : itemsOf "generate+cfuRespReadyAlways".toList = ["cfuRespReadyAlways".toList] := by
    decide
  have hcfu : HasCfu "cfuRespReadyAlways".toList := by decide
  have hargs : freshHost.sbt
      (build (cpuParams.set "cfuRespReadyAlways".toList "true".toList)).genArgs = 0 := by
    decide +kernel
  rw [faithful_iff_exact, hitems]
  rintro (h | h | ⟨item, hitem, h⟩ | h | ⟨params, hparse, h⟩)
  · cases h
  · exact h (by decide)
  · rw [List.mem_singleton.mp hitem] at h
    exact h.1 hcfu
  · exact absurd (h _ (List.mem_singleton.mpr rfl) hcfu) (by decide)
  · have hrun := (parse_eq_ok_iff.mp hparse).2
    rw [hitems, foldlM_cons_eq_ok_iff] at hrun
    obtain ⟨next, hnext, hrest⟩ := hrun
    cases hrest
    rw [assign, if_pos hcfu] at hnext
    cases hnext
    exact h ⟨.inr hargs, rfl⟩

end CfuPlayground.CpuVariant
