/-
**`winexts`: loading and unloading the kernel module, and the objects it registers.**

`init_mod` registers a character-device region, a device class, a `cdev` and a device, looks up
three kernel symbols and installs its hooks; at the first failure it releases what it has
registered, logs why, and returns an error. `free_mod` removes the hooks and releases the four
objects. The kernel's answers to the calls are the fields of `Kernel`; the module's side of the
kernel is the state `Module`: the objects it holds, its hooks and its log. Releasing an object the
module does not hold stops the run (`none`): a double `cdev_del` or `class_destroy` corrupts the
kernel. `module_init` and `module_exit` hand the two functions to the kernel, which runs them on
`insmod` and `rmmod` (`System.step`).

* `run_unwind`: every failure exit after `alloc_chrdev_region` releases exactly what the module
  holds there, whatever order the source releases it in.
* `initMod_exits` — **one load**: from a module that holds nothing, `init_mod` releases only objects
  it holds, and returns 0 with the four objects and its hooks in place exactly when every call
  succeeds, and otherwise a negative value with nothing held and no hooks. The registration calls
  are sorted first, then the lookups (`lookups_exits`).
* `exec_registry` — **every sequence of loads and unloads**: no run releases an object twice, a
  loaded module holds exactly the four objects and its hooks, an unloaded one holds nothing, and
  the next `insmod` of an unloaded module loads it exactly when every kernel call succeeds.
-/

import Mathlib.Data.List.Perm.Basic

namespace Winexts

/-- The objects `init_mod` registers with the kernel, in the order it registers them. -/
inductive Resource where
  /-- `alloc_chrdev_region`, released by `unregister_chrdev_region`. -/
  | chrdevRegion
  /-- `class_create`, released by `class_destroy`. -/
  | deviceClass
  /-- `cdev_add`, released by `cdev_del`. -/
  | cdev
  /-- `device_create`, released by `device_destroy`. -/
  | device
  deriving Repr, DecidableEq

/-- The kernel's answers to the calls of `init_mod`: whether it is built with `CONFIG_X86_64`, the
return values of `alloc_chrdev_region`, `cdev_add` and the three symbol lookups, whether
`class_create` and `device_create` returned a non-null pointer, and whether `init_hooks`
succeeded. -/
structure Kernel where
  configX8664 : Bool
  allocChrdevRegion : Int
  classCreate : Bool
  cdevAdd : Int
  deviceCreate : Bool
  findCssSetLock : Int
  findTasklistLock : Int
  findCpuRunqueues : Int
  initHooks : Bool
  deriving Repr, DecidableEq

/-- The three `printk` wrappers of `main.c`: `c_printk_info`, `c_printk_error` and `c_printk`. -/
inductive Level where
  | info
  | error
  | plain
  deriving Repr, DecidableEq

/-- The module's side of the kernel: the objects it holds, whether its hooks are installed, and the
lines it has logged, each with its wrapper and format string. -/
structure Module where
  held : List Resource
  hooked : Bool
  log : List (Level × String)
  deriving Repr, DecidableEq

/-- Before `init_mod`: nothing registered, no hooks, nothing logged. -/
@[simp] def Module.unloaded : Module := ⟨[], false, []⟩

/-- A run of the module against the kernel: `none` where it releases an object it does not hold. -/
abbrev Run := StateT Module Option

/-! ### The kernel calls -/

def register (resource : Resource) : Run Unit :=
  modify fun m => { m with held := m.held ++ [resource] }

def release (resource : Resource) : Run Unit := fun m =>
  if resource ∈ m.held then some ((), { m with held := m.held.erase resource }) else none

def printk (level : Level) (format : String) : Run Unit :=
  modify fun m => { m with log := m.log ++ [(level, format)] }

/-- `release` of each object in turn, in the order given. -/
def releaseEach : List Resource → Run Unit
  | [] => pure ()
  | resource :: rest => do
      release resource
      releaseEach rest

/-- A failure exit of `init_mod` after `alloc_chrdev_region`: the releases the source makes there,
in its order, the line it logs with its wrapper, and `return -1`. -/
def unwind (releases : List Resource) (level : Level) (format : String) : Run Int := do
  releaseEach releases
  printk level format
  return -1

/-- `device_destroy`, `class_destroy`, `cdev_del`, `unregister_chrdev_region`: the releases of every
failure after `device_create`, and of `free_mod`. -/
def teardown : List Resource := [.device, .deviceClass, .cdev, .chrdevRegion]

/-! ### `init_mod` and `free_mod` -/

/-- The part of `init_mod` after `device_create`: the three symbol lookups, the line with the load
address, and `init_hooks`. The failed lookups of `css_set_lock` and `tasklist_lock` log with
`c_printk_info`, the others with `c_printk_error`. -/
def lookups (k : Kernel) : Run Int :=
  if k.findCssSetLock < 0 then unwind teardown .info "couldn\x27t find css_set_lock\n"
  else if k.findTasklistLock < 0 then unwind teardown .info "couldn\x27t find find_tasklist_lock\n"
  else if k.findCpuRunqueues < 0 then unwind teardown .error "couldn\x27t find cpu runqueues addr\n"
  else do
    printk .plain "kernel module loaded at %lX. (kernel offset: %lX)\n"
    if !k.initHooks then unwind teardown .error "couldn\x27t init hooks\n"
    else do
      modify fun m => { m with hooked := true }
      return 0

/-- `init_mod()`: each early `return` of the source is the `then` branch of one `if`. -/
def initMod (k : Kernel) : Run Int :=
  if !k.configX8664 then do
    printk .error "The kernel module supports only x86-64\n"
    printk .error "New archs will be supported soon.\n"
    return -1
  else if k.allocChrdevRegion < 0 then do
    printk .error "failed to register device %s\n"
    return k.allocChrdevRegion
  else do
    register .chrdevRegion
    printk .info "registered device %s\n"
    if !k.classCreate then unwind [.chrdevRegion] .error "failed to create class name %s for device %s\n"
    else do
      register .deviceClass
      if k.cdevAdd < 0 then unwind [.deviceClass, .chrdevRegion] .error "device %s addition failed\n"
      else do
        register .cdev
        printk .info "created class name %s for device %s\n"
        if !k.deviceCreate then
          unwind [.deviceClass, .cdev, .chrdevRegion] .error "failed to create device %s\n"
        else do
          register .device
          printk .info "successfully created device %s\n"
          lookups k

/-- `free_mod()`: `clean_hooks`, the four releases, and the last line. -/
def freeMod : Run Unit := do
  modify fun m => { m with hooked := false }
  releaseEach teardown
  printk .plain "kernel module unloaded.\n"

/-! ### One call at a time -/

section Calls

variable (m : Module)

@[simp] theorem run_register (resource : Resource) :
    (register resource).run m = some ((), { m with held := m.held ++ [resource] }) := rfl

@[simp] theorem run_printk (level : Level) (format : String) :
    (printk level format).run m = some ((), { m with log := m.log ++ [(level, format)] }) := rfl

@[simp] theorem run_some_bind {α β : Type} (a : α) (f : α → Option β) : (some a >>= f) = f a := rfl

@[simp] theorem run_release (resource : Resource) :
    (release resource).run m =
      if resource ∈ m.held then some ((), { m with held := m.held.erase resource }) else none := rfl

end Calls

/-- **Releasing each object the module holds, in any order, releases each once** and leaves nothing
held. -/
theorem run_releaseEach (releases : List Resource) {m : Module} (holds : releases.Perm m.held) :
    (releaseEach releases).run m = some ((), { m with held := [] }) := by
  induction releases generalizing m with
  | nil =>
      have empty := holds.symm.eq_nil
      cases m
      subst empty
      rfl
  | cons resource rest ih =>
      have inside : resource ∈ m.held := holds.subset (List.mem_cons_self _ _)
      have remaining : rest.Perm (m.held.erase resource) :=
        (List.perm_cons resource).mp (holds.trans (List.perm_cons_erase inside))
      simp only [releaseEach, StateT.run_bind, run_release, if_pos inside, run_some_bind]
      exact ih remaining

/-- **A failure exit that releases what the module holds** ends with nothing held, its line logged,
and -1. -/
@[simp] theorem run_unwind {releases : List Resource} (level : Level) (format : String) {m : Module}
    (holds : releases.Perm m.held) :
    (unwind releases level format).run m =
      some (-1, { m with held := [], log := m.log ++ [(level, format)] }) := by
  simp [unwind, run_releaseEach releases holds]

/-! ### One load -/

/-- The symbol lookups and `init_hooks` pass the tests the source makes of them. -/
def Kernel.Finds (k : Kernel) : Prop :=
  ¬k.findCssSetLock < 0 ∧ ¬k.findTasklistLock < 0 ∧ ¬k.findCpuRunqueues < 0 ∧ k.initHooks = true

/-- Every call of `init_mod` up to `device_create` passes the test the source makes of it. -/
def Kernel.Registers (k : Kernel) : Prop :=
  k.configX8664 = true ∧ ¬k.allocChrdevRegion < 0 ∧ k.classCreate = true ∧ ¬k.cdevAdd < 0 ∧
    k.deviceCreate = true

/-- Every call of `init_mod` passes the test the source makes of it. -/
def Kernel.Succeeds (k : Kernel) : Prop := k.Registers ∧ k.Finds

instance decideFinds (k : Kernel) : Decidable k.Finds := inferInstanceAs (Decidable (_ ∧ _))

instance decideRegisters (k : Kernel) : Decidable k.Registers := inferInstanceAs (Decidable (_ ∧ _))

instance decideSucceeds (k : Kernel) : Decidable k.Succeeds := inferInstanceAs (Decidable (_ ∧ _))

/-- How a load that asks `succeeds` ends: with 0, the four objects and the hooks in place, or with a
negative value, nothing held and no hooks. -/
def Loads (succeeds : Prop) [Decidable succeeds] (ret : Int) (m : Module) : Prop :=
  if succeeds then ret = 0 ∧ m.held = [.chrdevRegion, .deviceClass, .cdev, .device] ∧ m.hooked = true
  else ret < 0 ∧ m.held = [] ∧ m.hooked = false

/-- **The lookups, with the four objects registered**: every failure unwinds them, and success
installs the hooks. -/
theorem lookups_exits (k : Kernel) {m : Module} (full : m.held = [.chrdevRegion, .deviceClass, .cdev, .device])
    (unhooked : m.hooked = false) :
    ∃ ret m', (lookups k).run m = some (ret, m') ∧ Loads k.Finds ret m' := by
  have holds : teardown.Perm m.held := by rw [full]; decide
  by_cases css : k.findCssSetLock < 0
  · simp [lookups, css, holds, unhooked, Loads, Kernel.Finds, and_assoc]
  by_cases tasks : k.findTasklistLock < 0
  · simp [lookups, css, tasks, holds, unhooked, Loads, Kernel.Finds, and_assoc]
  by_cases cpu : k.findCpuRunqueues < 0
  · simp [lookups, css, tasks, cpu, holds, unhooked, Loads, Kernel.Finds, and_assoc]
  cases hooks : k.initHooks
  · simp [lookups, css, tasks, cpu, hooks, holds, unhooked, Loads, Kernel.Finds, and_assoc]
  · simp [lookups, css, tasks, cpu, hooks, full, Loads, Kernel.Finds, and_assoc]

/-- **Every exit of `init_mod`**, from a module that holds nothing and has no hooks: the run releases
only objects it holds; it returns 0 with the four objects and the hooks in place when every call
succeeds, and otherwise a negative value with nothing held and no hooks. -/
theorem initMod_exits (k : Kernel) {m : Module} (empty : m.held = []) (unhooked : m.hooked = false) :
    ∃ ret m', (initMod k).run m = some (ret, m') ∧ Loads k.Succeeds ret m' := by
  cases x86 : k.configX8664
  · simp [initMod, x86, empty, unhooked, Loads, Kernel.Succeeds, Kernel.Registers, and_assoc]
  by_cases alloc : k.allocChrdevRegion < 0
  · simp [initMod, x86, alloc, empty, unhooked, Loads, Kernel.Succeeds, Kernel.Registers, and_assoc]
  cases cls : k.classCreate
  · simp [initMod, x86, alloc, cls, empty, unhooked, Loads, Kernel.Succeeds, Kernel.Registers, and_assoc]
  by_cases cdev : k.cdevAdd < 0
  · simp [initMod, x86, alloc, cls, cdev, empty, unhooked, Loads, Kernel.Succeeds, Kernel.Registers,
      List.Perm.swap, and_assoc]
  cases dev : k.deviceCreate
  · have holds : [Resource.deviceClass, .cdev, .chrdevRegion].Perm [.chrdevRegion, .deviceClass, .cdev] := by
      decide
    simp [initMod, x86, alloc, cls, cdev, dev, empty, unhooked, holds, Loads, Kernel.Succeeds,
      Kernel.Registers, and_assoc]
  have registers : k.Registers := ⟨x86, alloc, cls, cdev, dev⟩
  obtain ⟨ret, m', run, loads⟩ := lookups_exits k (m := { m with
    held := [.chrdevRegion, .deviceClass, .cdev, .device],
    log := m.log ++ [(.info, "registered device %s\n"), (.info, "created class name %s for device %s\n"),
      (.info, "successfully created device %s\n")] }) rfl unhooked
  refine ⟨ret, m', ?_, by simpa [Loads, Kernel.Succeeds, registers] using loads⟩
  simpa [initMod, x86, alloc, cls, cdev, dev, empty] using run

/-- `free_mod` on a module that holds the four objects releases each once. -/
theorem run_freeMod {m : Module} (full : m.held = [.chrdevRegion, .deviceClass, .cdev, .device]) :
    freeMod.run m =
      some ((), { m with held := [], hooked := false, log := m.log ++ [(.plain, "kernel module unloaded.\n")] }) := by
  have holds : teardown.Perm m.held := by rw [full]; decide
  simp [freeMod, StateT.run_bind, run_releaseEach teardown (m := { m with hooked := false }) holds]

/-! ### Every sequence of loads and unloads -/

/-- What the kernel does with the module: `insmod` runs `init_mod` against the kernel's answers,
`rmmod` runs `free_mod`. -/
inductive Command where
  | insmod (k : Kernel)
  | rmmod
  deriving Repr, DecidableEq

/-- The kernel's record of the module, loaded or not, and the module's side of the kernel. -/
structure System where
  loaded : Bool
  module : Module
  deriving Repr, DecidableEq

/-- Before the first `insmod`. -/
def System.initial : System := ⟨false, Module.unloaded⟩

/-- One command: `module_init` keeps the module loaded only when `init_mod` returned 0, and
`module_exit` runs `free_mod` only on a loaded module; the kernel refuses `insmod` of a loaded module
and `rmmod` of an unloaded one, which change nothing. `none` where the module releases an object it
does not hold. -/
def System.step (s : System) : Command → Option System
  | .insmod k =>
      if s.loaded then some s
      else ((initMod k).run s.module).map fun result => ⟨result.1 == 0, result.2⟩
  | .rmmod =>
      if s.loaded then (freeMod.run s.module).map fun result => ⟨false, result.2⟩
      else some s

/-- A sequence of commands, one step after another. -/
def System.exec : System → List Command → Option System
  | s, [] => some s
  | s, command :: rest => (s.step command).bind fun s => s.exec rest

/-- The registry matches the kernel's record: a loaded module holds the four objects and its hooks,
an unloaded one holds nothing and has no hooks. -/
def System.Consistent (s : System) : Prop :=
  if s.loaded then s.module.held = [.chrdevRegion, .deviceClass, .cdev, .device] ∧ s.module.hooked = true
  else s.module.held = [] ∧ s.module.hooked = false

/-- **`insmod` of an unloaded module** returns, leaves the registry consistent, and loads the module
exactly when every kernel call succeeds. -/
theorem step_insmod {s : System} (consistent : s.Consistent) (unloaded : s.loaded = false) (k : Kernel) :
    ∃ s', s.step (.insmod k) = some s' ∧ s'.Consistent ∧ (s'.loaded = true ↔ k.Succeeds) := by
  simp only [System.Consistent, unloaded] at consistent
  obtain ⟨ret, m', run, loads⟩ := initMod_exits k consistent.1 consistent.2
  refine ⟨⟨ret == 0, m'⟩, by simp [System.step, unloaded, run], ?_⟩
  unfold Loads at loads
  split_ifs at loads with succeeds
  · simp [System.Consistent, loads, succeeds]
  · simp [System.Consistent, loads, succeeds, Int.ne_of_lt loads.1]

/-- **Each command keeps the registry consistent** and releases only what the module holds. -/
theorem step_consistent {s : System} (consistent : s.Consistent) (command : Command) :
    ∃ s', s.step command = some s' ∧ s'.Consistent := by
  cases command with
  | insmod k =>
      cases loaded : s.loaded
      · obtain ⟨s', step, after, -⟩ := step_insmod consistent loaded k
        exact ⟨s', step, after⟩
      · exact ⟨s, by simp [System.step, loaded], consistent⟩
  | rmmod =>
      cases loaded : s.loaded
      · exact ⟨s, by simp [System.step, loaded], consistent⟩
      · simp only [System.Consistent, loaded, if_true] at consistent
        simp only [System.step, loaded, if_true, run_freeMod consistent.1, Option.map_some']
        exact ⟨_, rfl, by simp [System.Consistent]⟩

/-- A consistent registry stays consistent over every sequence of commands. -/
theorem exec_consistent {s : System} (consistent : s.Consistent) (commands : List Command) :
    ∃ s', s.exec commands = some s' ∧ s'.Consistent := by
  induction commands generalizing s with
  | nil => exact ⟨s, rfl, consistent⟩
  | cons command rest ih =>
      obtain ⟨next, step, after⟩ := step_consistent consistent command
      simpa [System.exec, step] using ih after

/-- **No leak and no double release, over every sequence of loads and unloads.** From the kernel
before the first `insmod`, every sequence of `insmod` (against any answers of the kernel) and
`rmmod` releases only objects the module holds; afterwards a loaded module holds exactly the four
objects and its hooks, an unloaded one holds nothing and has no hooks, and the next `insmod` of an
unloaded module loads it exactly when every kernel call succeeds. -/
theorem exec_registry (commands : List Command) :
    ∃ s, System.initial.exec commands = some s ∧ s.Consistent ∧
      ∀ k, s.loaded = false → ∃ s', s.step (.insmod k) = some s' ∧ (s'.loaded = true ↔ k.Succeeds) := by
  obtain ⟨s, run, consistent⟩ := exec_consistent (s := System.initial) (by simp [System.Consistent, System.initial])
    commands
  refine ⟨s, run, consistent, fun k unloaded => ?_⟩
  obtain ⟨s', step, -, loads⟩ := step_insmod consistent unloaded k
  exact ⟨s', step, loads⟩

end Winexts
