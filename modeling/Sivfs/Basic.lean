/-
# Timestamps, machine words and return codes

`kern/sivfs_types.h`, `kern/sivfs_common.h` and the page constants of the
x86-64 kernel the module is built for.

`sivfs_ts` is a `__u64` counter of commits, started at `0` and stepped by one
per commit, together with the sentinel `SIVFS_INVALID_TS = (sivfs_ts)(-1)`.
The sentinel means "no transaction" in `struct sivfs_state` and "being
published" in `struct sivfs_latest_checkpoint`, and it compares above every
timestamp.  A timestamp is therefore a `WithTop ℕ`, with `⊤` for the sentinel.

`size_t`, `unsigned long` and `sivfs_word_t` are natural numbers below `2^64`;
arithmetic that the C code may wrap is written with an explicit `% u64Size`.
-/

import Mathlib.Data.ENat.Basic
import Mathlib.Order.Lattice.Nat
import Mathlib.Tactic.Common

namespace Sivfs

/-- A timestamp of the kernel, `⊤` standing for `SIVFS_INVALID_TS`. -/
abbrev Ts := WithTop ℕ

/-- Whether a timestamp is in a list is decided by its equality. -/
instance lawfulBEqTs : LawfulBEq Ts := inferInstance

/-- What the literal `2` needs in a type with casts. -/
instance atLeastTwoTwo : Nat.AtLeastTwo 2 := inferInstance

/-- `SIVFS_INVALID_TS`. -/
def invalidTs : Ts := ⊤

/-- `ts + k` in `__u64` arithmetic: the sentinel is `-1`, so it wraps to
`k - 1`. -/
def tsAdd : Ts → ℕ → ℕ
  | ⊤, k => k - 1
  | (t : ℕ), k => t + k

@[simp] theorem tsAdd_coe (t k : ℕ) : tsAdd (t : Ts) k = t + k := rfl

/-- The modulus of `size_t`, `unsigned long` and `__u64`. -/
def u64Size : ℕ := 2 ^ 64

/-- `PAGE_SIZE`. -/
def pageSize : ℕ := 4096

/-- `sizeof(sivfs_word_t)`. -/
def wordBytes : ℕ := 8

/-- The negated error numbers the modelled functions return. -/
inductive Errno where
  | einval
  | enomem
  | efault
  | eintr
  deriving DecidableEq, Repr

end Sivfs
