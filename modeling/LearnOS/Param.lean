import Mathlib.Algebra.Order.Ring.Nat
import Mathlib.Data.Fin.Basic

/-!
# Constants and outcomes of kernel code

The constants are those of `riscv.h` and `memlayout.h`. Kernel functions return
in `Kres`: either a value, or the way in which the kernel stops.
-/

namespace LearnOS

def PGSIZE : ℕ := 4096
def KERNBASE : ℕ := 0x80000000
def PHYSTOP : ℕ := KERNBASE + 128 * 1024 * 1024
def MAXVA : ℕ := 2 ^ (9 + 9 + 9 + 12 - 1)
def TRAMPOLINE : ℕ := MAXVA - PGSIZE
def TRAPFRAME : ℕ := TRAMPOLINE - PGSIZE
def SHMTOP : ℕ := TRAPFRAME - PGSIZE
def HEAPTOP : ℕ := MAXVA - 2 ^ 30
def NPROC : ℕ := 64

instance : NeZero NPROC := ⟨by decide⟩

/-- `PGROUNDUP`: the mask clears the offset bits, so it rounds to a multiple. -/
def pgroundup (a : ℕ) : ℕ := (a + PGSIZE - 1) / PGSIZE * PGSIZE

def pgrounddown (a : ℕ) : ℕ := a / PGSIZE * PGSIZE

/-- How the kernel stops. A load or store through the null pointer traps, since
the kernel page table does not map address zero. -/
inductive Fault where
  | panic (msg : String)
  | nullLoad
  | nullStore
  | undefined
  | deadlock
  deriving DecidableEq, Repr

/-- The result of a kernel function. -/
abbrev Kres (α : Type*) := Except Fault α

section Bind

variable {α β : Type}

@[simp] theorem Kres.ok_bind (a : α) (f : α → Kres β) :
    ((Except.ok a : Kres α) >>= f) = f a := rfl

@[simp] theorem Kres.error_bind (e : Fault) (f : α → Kres β) :
    ((Except.error e : Kres α) >>= f) = Except.error e := rfl

@[simp] theorem Kres.pure_eq (a : α) : (pure a : Kres α) = Except.ok a := rfl

theorem Kres.pure_eq_ok {a b : α} : (pure a : Kres α) = Except.ok b ↔ a = b := by
  rw [Kres.pure_eq, Except.ok.injEq]

@[simp] theorem Kres.throw_eq (e : Fault) : (throw e : Kres α) = Except.error e := rfl

/-- A sequence that returns has returned from both of its parts. -/
theorem Kres.bind_eq_ok {x : Kres α} {f : α → Kres β} {b : β} :
    (x >>= f) = Except.ok b ↔ ∃ a, x = Except.ok a ∧ f a = Except.ok b := by
  cases x with
  | error e => simp
  | ok a => simp

/-- The function returns, and its result has the property. -/
def Kres.Yields (x : Kres α) (P : α → Prop) : Prop := ∃ a, x = .ok a ∧ P a

theorem Kres.yields_ok {a : α} {P : α → Prop} : Kres.Yields (.ok a) P ↔ P a := by
  simp [Kres.Yields]

instance (x : Kres α) (P : α → Prop) [DecidablePred P] : Decidable (x.Yields P) :=
  match x with
  | .ok _ => decidable_of_iff _ Kres.yields_ok.symm
  | .error _ => isFalse (by simp [Kres.Yields])

end Bind

theorem PHYSTOP_eq : PHYSTOP = 2281701376 := rfl

theorem KERNBASE_eq : KERNBASE = 2147483648 := rfl

end LearnOS
