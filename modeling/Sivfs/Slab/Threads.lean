/-
# Free lists in memory

A free list is threaded through its regions: the nodes of memory are pointers of `Links`,
`NULL` pointing nowhere, and a free list is a chain from its head back to its head.  The
head is a region like the others and not a node of its own.

`sivfs_alloc_lh_add_ws` and `sivfs_alloc_lh_remove_ws` are `Links.add` and `Links.del` on the
nodes of one list (`wp_lhAddWs`, `wp_lhRemoveWs`), and leave every other word alone
(`Rewrites`).  If an append to the write set fails half way the list may be broken, but what
`Rewrites` says still holds.
-/

import Sivfs.Lib.Ring
import Sivfs.Slab.Heap

namespace Sivfs
namespace Slab

open Call

/-- A pointer that is not `NULL`. -/
def pointer (a : ℕ) : Option ℕ := if a = 0 then none else some a

/-- The list nodes of memory. -/
def links (mem : ℕ → ℕ) : Links ℕ where
  next a := pointer (lhNext mem a)
  prev a := pointer (lhPrev mem a)

/-- The nodes of a circular list, its head first. -/
def Ring (mem : ℕ → ℕ) : List ℕ → Prop
  | [] => True
  | h :: l => (links mem).Chain h l h

/-- From `s` to `s'` no words change but those of the nodes `N`. -/
structure Rewrites (N : List ℕ) (s s' : Heap) : Prop where
  mem : ∀ a, (∀ y ∈ N, a ≠ y ∧ a ≠ y + 8) → s'.mem a = s.mem a
  freeLists : s'.freeLists = s.freeLists
  mmapStates : s'.mmapStates = s.mmapStates

/-- Nodes that are aligned, not `NULL` and not next to each other. -/
structure Spaced (N : List ℕ) : Prop where
  mod : ∀ y ∈ N, y % wordBytes = 0
  ne_zero : ∀ y ∈ N, y ≠ 0
  apart : ∀ y ∈ N, ∀ z ∈ N, y ≠ z + 8

theorem pointer_eq_some {a b : ℕ} : pointer a = some b ↔ a = b ∧ b ≠ 0 := by
  rw [pointer]
  split_ifs with h
  · simp only [false_iff]
    rintro ⟨rfl, hb⟩
    exact hb h
  · rw [Option.some.injEq]
    constructor
    · rintro rfl
      exact ⟨rfl, h⟩
    · exact fun h => h.1

theorem pointer_of_ne {a : ℕ} (h : a ≠ 0) : pointer a = some a := if_neg h

/-! ### Following a list -/

theorem next_eq_some {mem : ℕ → ℕ} {x y : ℕ} (h : (links mem).next x = some y) :
    lhNext mem x = y := (pointer_eq_some.1 h).1

/-- The nodes of a list are what is met by following `next` from its head. -/
theorem Ring.mem_iff {mem : ℕ → ℕ} {h x : ℕ} {l : List ℕ} (hr : Ring mem (h :: l)) :
    x ∈ h :: l ↔ ∃ n, (lhNext mem)^[n] h = x := by
  constructor
  · intro hx
    rcases List.mem_cons.1 hx with rfl | hx
    · exact ⟨0, rfl⟩
    · obtain ⟨n, hn⟩ := Links.Chain.reaches (fun _ _ => next_eq_some) hr
        (List.mem_append_left [h] hx)
      exact ⟨n + 1, hn⟩
  · rintro ⟨n, rfl⟩
    induction n with
    | zero => exact List.mem_cons_self
    | succ n ih =>
      obtain ⟨y, hy, hnext⟩ := Links.Chain.next_mem hr ih
      rw [Function.iterate_succ_apply', next_eq_some hnext]
      simpa [or_comm] using hy

/-- Following a list comes back to its head. -/
theorem Ring.cycle {mem : ℕ → ℕ} {h : ℕ} {l : List ℕ} (hr : Ring mem (h :: l)) :
    ∃ n, (lhNext mem)^[n + 1] h = h :=
  Links.Chain.reaches (fun _ _ => next_eq_some) hr (by simp)

/-- The next node of a list points back. -/
theorem Ring.prev_next {mem : ℕ → ℕ} {N : List ℕ} {x : ℕ} (hr : Ring mem N) (hx : x ∈ N) :
    lhPrev mem (lhNext mem x) = x := by
  cases N with
  | nil => simp at hx
  | cons h l =>
    obtain ⟨y, hnext, hprev⟩ := Links.Chain.adj hr hx
    rw [next_eq_some hnext]
    exact (pointer_eq_some.1 hprev).1

/-- A list does not depend on the words of other nodes. -/
theorem Ring.congr {mem mem' : ℕ → ℕ} {N : List ℕ} (hr : Ring mem N)
    (hmem : ∀ y ∈ N, mem' y = mem y ∧ mem' (y + 8) = mem (y + 8)) : Ring mem' N := by
  cases N with
  | nil => trivial
  | cons h l =>
    refine Links.Chain.congr hr (fun y hy => ?_) fun y hy => ?_
    · exact congrArg pointer (hmem y hy).2
    · exact congrArg pointer (hmem y (by simpa [or_comm] using hy)).1

/-! ### Adding and removing -/

/-- A write at an aligned address. -/
theorem wp_writeWs_of {address value : ℕ} {Q : Unit → Heap → Prop} {E : Failure → Heap → Prop}
    {s : Heap} (haddr : address % wordBytes = 0) (hok : Q () (s.write address value))
    (herr : E (.fatal .enomem) (s.store address value)) : (writeWs address value).wp Q E s :=
  wp_writeWs.2 ⟨fun _ => ⟨fun _ => hok, fun _ => herr⟩, fun h => absurd haddr h⟩

theorem wp_writeWs_seq {α : Type} {address value : ℕ} {f : Unit → Call Heap Failure α}
    {Q : α → Heap → Prop} {E : Failure → Heap → Prop} {s : Heap} (haddr : address % wordBytes = 0)
    (herr : E (.fatal .enomem) (s.store address value))
    (hok : (f ()).wp Q E (s.write address value)) :
    (writeWs address value >>= f).wp Q E s := wp_bind.2 (wp_writeWs_of haddr hok herr)

theorem Rewrites.write {N : List ℕ} {s s' : Heap} (h : Rewrites N s s') {a y : ℕ} (hy : y ∈ N)
    (ha : a = y ∨ a = y + 8) (value : ℕ) : Rewrites N s (s'.write a value) := by
  refine ⟨fun b hb => ?_, h.freeLists, h.mmapStates⟩
  have hne : b ≠ a := by
    have := hb y hy
    omega
  rw [write_mem, Function.update_of_ne hne, h.mem b hb]

theorem Rewrites.store {N : List ℕ} {s s' : Heap} (h : Rewrites N s s') {a y : ℕ} (hy : y ∈ N)
    (ha : a = y ∨ a = y + 8) (value : ℕ) : Rewrites N s (s'.store a value) :=
  let hw := h.write hy ha value
  ⟨hw.mem, hw.freeLists, hw.mmapStates⟩

/-- **Adding a region to a list.** -/
theorem wp_lhAddWs {s : Heap} {h x : ℕ} {l : List ℕ} (hr : Ring s.mem (h :: l))
    (hx : x ∉ h :: l) (hnd : (h :: l).Nodup) (hsp : Spaced (x :: h :: l))
    {Q : Unit → Heap → Prop} {E : Failure → Heap → Prop}
    (hok : ∀ s', Rewrites (x :: h :: l) s s' → Ring s'.mem (h :: x :: l) → Q () s')
    (herr : ∀ s', Rewrites (x :: h :: l) s s' → E (.fatal .enomem) s') :
    (lhAddWs h x).wp Q E s := by
  obtain ⟨t, ht, hnext⟩ := Links.Chain.next_mem hr (List.mem_cons_self (a := h) (l := l))
  have htN : t ∈ x :: h :: l := List.mem_cons_of_mem _ (by simpa [or_comm] using ht)
  have hprev : lhPrev s.mem t = h := by
    cases l with
    | nil =>
      obtain rfl : t = h := by simpa using ht
      exact (pointer_eq_some.1 hr.2).1
    | cons y l =>
      obtain rfl : y = t := Option.some.inj (hr.1.1.symm.trans hnext)
      exact (pointer_eq_some.1 hr.1.2).1
  have hxN : x ∈ x :: h :: l := List.mem_cons_self
  have hhN : h ∈ x :: h :: l := List.mem_cons_of_mem _ List.mem_cons_self
  have hxt : x ≠ t := fun e => hx (e ▸ by simpa [or_comm] using ht)
  have hmodx := hsp.mod x hxN
  have hmodh := hsp.mod h hhN
  have hrefl : Rewrites (x :: h :: l) s s := ⟨fun _ _ => rfl, rfl, rfl⟩
  have h₁ := hrefl.write hxN (.inr rfl) t
  have h₂ := h₁.write hxN (.inl rfl) h
  have h₃ := h₂.write hhN (.inr rfl) x
  rw [wordBytes] at hmodx hmodh
  rw [lhAddWs, wp_bind, wp_get]
  simp only [next_eq_some hnext, hprev]
  refine wp_writeWs_seq (by rw [wordBytes]; omega) (herr _ (hrefl.store hxN (.inr rfl) t)) ?_
  refine wp_writeWs_seq (by rw [wordBytes]; omega) (herr _ (h₁.store hxN (.inl rfl) h)) ?_
  refine wp_writeWs_seq (by rw [wordBytes]; omega) (herr _ (h₂.store hhN (.inr rfl) x)) ?_
  refine wp_writeWs_of (hsp.mod t htN) ?_ (herr _ (h₃.store htN (.inl rfl) x))
  refine hok _ (h₃.write htN (.inl rfl) x) ?_
  obtain ⟨L', hadd, hchain, -⟩ := Links.Chain.add hr hx hnd
  rw [Links.add, hnext] at hadd
  obtain rfl := Option.some.inj hadd
  have hsub : ∀ y, y ∈ h :: x :: l → y ∈ x :: h :: l := fun y hy => by
    simp only [List.mem_cons] at hy ⊢
    tauto
  refine Links.Chain.congr hchain (fun y hy => ?_) fun y hy => ?_
  · have hyt := (hsp.apart t htN y (hsub y hy)).symm
    have hyx := (hsp.apart x hxN y (hsub y hy)).symm
    simp only [links, lhNext, write_mem]
    rw [Function.update_of_ne hyt]
    rcases eq_or_ne y h with rfl | hyh
    · rw [Function.update_self, Function.update_self, pointer_of_ne (hsp.ne_zero x hxN)]
    · rw [Function.update_of_ne (by omega), Function.update_of_ne hyx, Function.update_of_ne hyh]
      rcases eq_or_ne y x with rfl | hyx'
      · rw [Function.update_self, Function.update_self, pointer_of_ne (hsp.ne_zero t htN)]
      · rw [Function.update_of_ne (by omega), Function.update_of_ne hyx']
  · have hyN : y ∈ x :: h :: l := by
      simp only [List.mem_append, List.mem_cons, List.not_mem_nil, or_false] at hy ⊢
      tauto
    have hyh := hsp.apart y hyN h hhN
    have hyx := hsp.apart y hyN x hxN
    simp only [links, lhPrev, write_mem]
    rcases eq_or_ne y x with rfl | hyx'
    · rw [Function.update_of_ne hxt, Function.update_of_ne hyh, Function.update_self,
        Function.update_self, pointer_of_ne (hsp.ne_zero h hhN)]
    · rw [Function.update_of_ne hyx']
      rcases eq_or_ne y t with rfl | hyt
      · rw [Function.update_self, Function.update_self, pointer_of_ne (hsp.ne_zero x hxN)]
      · rw [Function.update_of_ne hyt, Function.update_of_ne hyh, Function.update_of_ne hyx',
          Function.update_of_ne hyx, Function.update_of_ne hyt]

/-- **Removing a region that is not the head of its list.** -/
theorem wp_lhRemoveWs {s : Heap} {h x : ℕ} {l₁ l₂ : List ℕ}
    (hr : Ring s.mem (h :: (l₁ ++ x :: l₂))) (hnd : (h :: (l₁ ++ x :: l₂)).Nodup)
    (hsp : Spaced (h :: (l₁ ++ x :: l₂)))
    {Q : Unit → Heap → Prop} {E : Failure → Heap → Prop}
    (hok : ∀ s', Rewrites (h :: (l₁ ++ x :: l₂)) s s' → Ring s'.mem (h :: (l₁ ++ l₂)) → Q () s')
    (herr : ∀ s', Rewrites (h :: (l₁ ++ x :: l₂)) s s' → E (.fatal .enomem) s') :
    (lhRemoveWs x).wp Q E s := by
  obtain ⟨hbefore, hbehind⟩ := Links.chain_append.1 hr
  obtain ⟨p, hp, hlast⟩ : ∃ p ∈ h :: l₁, (links s.mem).prev x = some p :=
    ⟨_, List.getLast_mem _, hbefore.prev⟩
  obtain ⟨t, ht, hnext⟩ := Links.Chain.next_mem hbehind (List.mem_cons_self (a := x) (l := l₂))
  have hprev : lhPrev s.mem x = p := (pointer_eq_some.1 hlast).1
  have hxp : x ≠ p := by
    rintro rfl
    grind
  have hxt : x ≠ t := by
    rintro rfl
    grind
  have hxN : x ∈ h :: (l₁ ++ x :: l₂) := by simp
  have hpN : p ∈ h :: (l₁ ++ x :: l₂) := by grind
  have htN : t ∈ h :: (l₁ ++ x :: l₂) := by grind
  have hmodx := hsp.mod x hxN
  have hmodp := hsp.mod p hpN
  have hrefl : Rewrites (h :: (l₁ ++ x :: l₂)) s s := ⟨fun _ _ => rfl, rfl, rfl⟩
  have h₁ := hrefl.write hxN (.inl rfl) 0
  have h₂ := h₁.write hxN (.inr rfl) 0
  have h₃ := h₂.write hpN (.inr rfl) t
  rw [wordBytes] at hmodx hmodp
  rw [lhRemoveWs, wp_bind, wp_get, hprev, next_eq_some hnext, wp_bind, wp_require]
  refine ⟨fun _ => ?_, fun hn => absurd ⟨hxp, hxt⟩ hn⟩
  rw [wp_bind, wp_require]
  refine ⟨fun _ => ?_, fun hn => absurd ⟨hsp.ne_zero p hpN, hsp.ne_zero t htN⟩ hn⟩
  refine wp_writeWs_seq (by rw [wordBytes]; omega) (herr _ (hrefl.store hxN (.inl rfl) 0)) ?_
  refine wp_writeWs_seq (by rw [wordBytes]; omega) (herr _ (h₁.store hxN (.inr rfl) 0)) ?_
  refine wp_writeWs_seq (by rw [wordBytes]; omega) (herr _ (h₂.store hpN (.inr rfl) t)) ?_
  refine wp_writeWs_of (hsp.mod t htN) ?_ (herr _ (h₃.store htN (.inl rfl) p))
  refine hok _ (h₃.write htN (.inl rfl) p) ?_
  obtain ⟨L', hdel, hchain, -⟩ := Links.Chain.del hr hnd
  rw [Links.del, hlast, hnext] at hdel
  obtain rfl := Option.some.inj hdel
  have hsub : ∀ y, y ∈ h :: (l₁ ++ l₂) → y ∈ h :: (l₁ ++ x :: l₂) ∧ y ≠ x := by grind
  refine Links.Chain.congr hchain (fun y hy => ?_) fun y hy => ?_
  · obtain ⟨hyN, hyx⟩ := hsub y hy
    have hyt := (hsp.apart t htN y hyN).symm
    have hyx' := (hsp.apart x hxN y hyN).symm
    simp only [links, lhNext, write_mem]
    rw [Function.update_of_ne hyt, Function.update_of_ne hyx]
    rcases eq_or_ne y p with rfl | hyp
    · rw [Function.update_self, Function.update_self, pointer_of_ne (hsp.ne_zero t htN)]
    · rw [Function.update_of_ne (by omega), Function.update_of_ne (by omega),
        Function.update_of_ne hyx', Function.update_of_ne hyp]
  · obtain ⟨hyN, hyx⟩ := hsub y (by grind)
    have hyp := hsp.apart y hyN p hpN
    have hyx' := hsp.apart y hyN x hxN
    simp only [links, lhPrev, write_mem]
    rw [Function.update_of_ne hyx]
    rcases eq_or_ne y t with rfl | hyt
    · rw [Function.update_self, Function.update_self, pointer_of_ne (hsp.ne_zero p hpN)]
    · rw [Function.update_of_ne hyt, Function.update_of_ne hyp, Function.update_of_ne hyx',
        Function.update_of_ne hyx, Function.update_of_ne hyt]

end Slab
end Sivfs
