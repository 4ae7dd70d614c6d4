/-
# Circular doubly linked lists

Lists threaded through their elements, as `struct list_head`: a list is a head node
and the nodes met by following `next` from it until it is reached again.  A node
holds a pointer to the next and to the previous node, `none` where it was never
linked or was poisoned, and following such a pointer has no result.

`Chain a l b` says that the nodes `l` are linked from `a` to `b` in both directions;
a list with head `h` is a chain from `h` to `h`.  `Lists` is a family of such lists,
one for each head, over disjoint nodes: adding and deleting a node changes one member
of the family and leaves the others alone.
-/

import Mathlib.Data.List.Nodup
import Mathlib.Data.List.Pairwise
import Mathlib.Logic.Function.Basic
import Mathlib.Logic.Function.Iterate
import Mathlib.Tactic.Common

/-- The two pointers of every node. -/
structure Links (ν : Type*) where
  next : ν → Option ν
  prev : ν → Option ν

namespace Links

variable {ν : Type*}

/-- `a` and `b` point at each other. -/
def Adj (L : Links ν) (a b : ν) : Prop := L.next a = some b ∧ L.prev b = some a

/-- The nodes of a list lie between `a` and `b`, in this order. -/
def Chain (L : Links ν) : ν → List ν → ν → Prop
  | a, [], b => L.Adj a b
  | a, x :: l, b => L.Adj a x ∧ Chain L x l b

/-- The first of a chain. -/
theorem Chain.next {L : Links ν} {a b : ν} {l : List ν} (h : L.Chain a l b) :
    L.next a = some ((l ++ [b]).head (by simp)) := by
  cases l with
  | nil => exact h.1
  | cons x l => exact h.1.1

/-- The last of a chain. -/
theorem Chain.prev {L : Links ν} {a b : ν} {l : List ν} (h : L.Chain a l b) :
    L.prev b = some ((a :: l).getLast (by simp)) := by
  induction l generalizing a with
  | nil => exact h.2
  | cons x l ih => exact ih h.2

/-- Every node of a chain points somewhere. -/
theorem Chain.linked {L : Links ν} {a b x : ν} {l : List ν} (h : L.Chain a l b)
    (hx : x ∈ a :: l) : L.next x ≠ none := by
  induction l generalizing a with
  | nil =>
    obtain rfl : x = a := by simpa using hx
    simp [h.1]
  | cons y l ih =>
    rcases List.mem_cons.1 hx with rfl | hx
    · simp [h.1.1]
    · exact ih h.2 hx

/-- Following a node of a chain stays on it or ends it. -/
theorem Chain.next_mem {L : Links ν} {a b x : ν} {l : List ν} (h : L.Chain a l b)
    (hx : x ∈ a :: l) : ∃ y ∈ l ++ [b], L.next x = some y := by
  induction l generalizing a with
  | nil =>
    obtain rfl : x = a := by simpa using hx
    exact ⟨b, by simp, h.1⟩
  | cons z l ih =>
    rcases List.mem_cons.1 hx with rfl | hx
    · exact ⟨z, by simp, h.1.1⟩
    · obtain ⟨y, hy, hxy⟩ := ih h.2 hx
      exact ⟨y, List.mem_cons_of_mem _ hy, hxy⟩

/-- The next node of a node points back at it. -/
theorem Chain.adj {L : Links ν} {a b x : ν} {l : List ν} (h : L.Chain a l b) (hx : x ∈ a :: l) :
    ∃ y, L.Adj x y := by
  induction l generalizing a with
  | nil =>
    obtain rfl : x = a := by simpa using hx
    exact ⟨b, h⟩
  | cons y l ih =>
    rcases List.mem_cons.1 hx with rfl | hx
    · exact ⟨y, h.1⟩
    · exact ih h.2 hx

/-- Every node of a chain is met by following its pointers, and so is its end. -/
theorem Chain.reaches {L : Links ν} {f : ν → ν} (hf : ∀ x y, L.next x = some y → f x = y)
    {a b x : ν} {l : List ν} (h : L.Chain a l b) (hx : x ∈ l ++ [b]) : ∃ n, f^[n + 1] a = x := by
  induction l generalizing a with
  | nil =>
    obtain rfl : x = b := by simpa using hx
    exact ⟨0, hf a x h.1⟩
  | cons y l ih =>
    have hy := hf a y h.1.1
    rcases List.mem_cons.1 hx with rfl | hx
    · exact ⟨0, hy⟩
    · obtain ⟨n, hn⟩ := ih h.2 hx
      exact ⟨n + 1, by rw [Function.iterate_succ_apply, hy, hn]⟩

/-- A chain is two chains that meet. -/
theorem chain_append {L : Links ν} {a b x : ν} {l₁ l₂ : List ν} :
    L.Chain a (l₁ ++ x :: l₂) b ↔ L.Chain a l₁ x ∧ L.Chain x l₂ b := by
  induction l₁ generalizing a with
  | nil => rfl
  | cons y l₁ ih => simp only [List.cons_append, Chain, ih, and_assoc]

/-- A chain does not depend on the pointers it does not use. -/
theorem Chain.congr {L L' : Links ν} {a b : ν} {l : List ν} (h : L.Chain a l b)
    (hnext : ∀ x ∈ a :: l, L'.next x = L.next x) (hprev : ∀ x ∈ l ++ [b], L'.prev x = L.prev x) :
    L'.Chain a l b := by
  induction l generalizing a with
  | nil => exact ⟨(hnext a (by simp)).trans h.1, (hprev b (by simp)).trans h.2⟩
  | cons x l ih =>
    refine ⟨⟨(hnext a (by simp)).trans h.1.1, (hprev x (by simp)).trans h.1.2⟩, ih h.2 ?_ ?_⟩
    · exact fun y hy => hnext y (List.mem_cons_of_mem _ hy)
    · exact fun y hy => hprev y (List.mem_cons_of_mem _ hy)

/-- Two chains that meet in a node are one chain without it once their ends are linked. -/
theorem Chain.glue {L L' : Links ν} {a b x : ν} {l₁ l₂ : List ν} (h₁ : L.Chain a l₁ x)
    (h₂ : L.Chain x l₂ b)
    (hadj : L'.Adj ((a :: l₁).getLast (by simp)) ((l₂ ++ [b]).head (by simp)))
    (hnext : ∀ y ∈ (a :: l₁).dropLast ++ l₂, L'.next y = L.next y)
    (hprev : ∀ y ∈ l₁ ++ (l₂ ++ [b]).tail, L'.prev y = L.prev y) :
    L'.Chain a (l₁ ++ l₂) b := by
  induction l₁ generalizing a with
  | nil =>
    cases l₂ with
    | nil => exact hadj
    | cons n l₂ =>
      exact ⟨hadj, h₂.2.congr (fun y hy => hnext y (by simpa using hy))
        fun y hy => hprev y (by simpa using hy)⟩
  | cons y l₁ ih =>
    refine ⟨⟨(hnext a (by simp)).trans h₁.1.1, (hprev y (by simp)).trans h₁.1.2⟩,
      ih h₁.2 hadj ?_ ?_⟩
    · exact fun z hz => hnext z (by simp only [List.dropLast_cons_cons, List.cons_append,
        List.mem_cons, hz, or_true])
    · exact fun z hz => hprev z (List.mem_cons_of_mem _ hz)

variable [DecidableEq ν]

/-- `list_add`: `x` is linked in after `h`. -/
def add (L : Links ν) (x h : ν) : Option (Links ν) :=
  (L.next h).map fun n =>
    { next := Function.update (Function.update L.next x (some n)) h (some x)
      prev := Function.update (Function.update L.prev n (some x)) x (some h) }

/-- `list_del`: the neighbours of `x` are linked to each other and `x` is poisoned. -/
def del (L : Links ν) (x : ν) : Option (Links ν) :=
  (L.prev x).bind fun p => (L.next x).map fun n =>
    { next := Function.update (Function.update L.next p (some n)) x none
      prev := Function.update (Function.update L.prev n (some p)) x none }

/-- `list_move`. -/
def move (L : Links ν) (x h : ν) : Option (Links ν) := (L.del x).bind fun L => L.add x h

/-- Adding a node to a list that does not hold it. -/
theorem Chain.add {L : Links ν} {h x : ν} {l : List ν} (hc : L.Chain h l h)
    (hx : x ∉ h :: l) (hl : (h :: l).Nodup) :
    ∃ L', L.add x h = some L' ∧ L'.Chain h (x :: l) h ∧
      ∀ y, y ≠ x → y ∉ h :: l → L'.next y = L.next y ∧ L'.prev y = L.prev y := by
  have hxh : x ≠ h := fun e => hx (e ▸ List.mem_cons_self ..)
  obtain ⟨hhl, -⟩ := List.nodup_cons.1 hl
  refine ⟨_, by rw [Links.add, hc.next]; rfl, ?_, ?_⟩
  · cases l with
    | nil => simp [Chain, Adj, hxh, hxh.symm]
    | cons n l =>
      have hxn : n ≠ x := fun e => hx (by simp [e])
      refine ⟨by simp [Adj], ⟨by simp [hxh], by simp [hxn]⟩, hc.2.congr ?_ ?_⟩
      · intro y hy
        have hyx : y ≠ x := fun e => hx (e ▸ List.mem_cons_of_mem _ hy)
        have hyh : y ≠ h := fun e => hhl (e ▸ hy)
        simp [hyx, hyh]
      · intro y hy
        have hyx : y ≠ x := by grind
        have hyn : y ≠ n := by grind
        simp [hyx, hyn]
  · intro y hyx hy
    have hyh : y ≠ h := fun e => hy (e ▸ List.mem_cons_self ..)
    have hyn : y ≠ (l ++ [h]).head (by simp) := by
      have := List.head_mem (show l ++ [h] ≠ [] by simp)
      grind
    simp [hyx, hyh, hyn]

/-- Deleting a node of a list. -/
theorem Chain.del {L : Links ν} {h x : ν} {l₁ l₂ : List ν} (hc : L.Chain h (l₁ ++ x :: l₂) h)
    (hl : (h :: (l₁ ++ x :: l₂)).Nodup) :
    ∃ L', L.del x = some L' ∧ L'.Chain h (l₁ ++ l₂) h ∧ L'.next x = none ∧
      ∀ y, y ∉ h :: (l₁ ++ x :: l₂) → L'.next y = L.next y ∧ L'.prev y = L.prev y := by
  obtain ⟨h₁, h₂⟩ := chain_append.1 hc
  have hp : (h :: l₁).getLast (by simp) ∈ h :: l₁ := List.getLast_mem _
  have hn : (l₂ ++ [h]).head (by simp) ∈ l₂ ++ [h] := List.head_mem _
  have hlast : ∀ y ∈ (h :: l₁).dropLast, y ≠ (h :: l₁).getLast (by simp) := by
    have : (h :: l₁).Nodup := by grind
    exact fun y hy => List.Pairwise.rel_dropLast_getLast this hy
  have hhead : ∀ y ∈ (l₂ ++ [h]).tail, y ≠ (l₂ ++ [h]).head (by simp) := by
    have : (l₂ ++ [h]).Nodup := by grind
    exact fun y hy => (List.Pairwise.rel_head_tail this hy).symm
  have hdrop : ∀ y ∈ (h :: l₁).dropLast, y ∈ h :: l₁ := fun y hy => List.dropLast_subset _ hy
  have htail : ∀ y ∈ (l₂ ++ [h]).tail, y ∈ l₂ ++ [h] := fun y hy => List.mem_of_mem_tail hy
  refine ⟨_, by rw [Links.del, h₁.prev, h₂.next]; rfl, h₁.glue h₂ ⟨?_, ?_⟩ ?_ ?_, ?_, ?_⟩
  · have hpx : (h :: l₁).getLast (by simp) ≠ x := by grind
    simp [hpx]
  · have hnx : (l₂ ++ [h]).head (by simp) ≠ x := by grind
    simp [hnx]
  · intro y hy
    have hyx : y ≠ x := by grind
    have hyp : y ≠ (h :: l₁).getLast (by simp) := by grind
    simp [hyx, hyp]
  · intro y hy
    have hyx : y ≠ x := by grind
    have hyn : y ≠ (l₂ ++ [h]).head (by simp) := by grind
    simp [hyx, hyn]
  · simp
  · intro y hy
    have hyx : y ≠ x := by grind
    have hyp : y ≠ (h :: l₁).getLast (by simp) := by grind
    have hyn : y ≠ (l₂ ++ [h]).head (by simp) := by grind
    simp [hyx, hyp, hyn]

end Links

/-! ### Families of lists -/

/-- A node is the head of a list or is threaded through an element. -/
inductive ListNode (η κ : Type*) where
  | head (h : η)
  | item (x : κ)
  deriving DecidableEq

namespace Links

variable {η κ : Type*}

/-- `L` threads the list `R h` from the head `h`, for every `h`, and no element twice. -/
structure Lists (L : Links (ListNode η κ)) (R : η → List κ) : Prop where
  chain : ∀ h, L.Chain (.head h) ((R h).map .item) (.head h)
  nodup : ∀ h, (R h).Nodup
  disjoint : ∀ {h g x}, x ∈ R h → x ∈ R g → h = g

namespace Lists

variable {L : Links (ListNode η κ)} {R : η → List κ}

/-- The head of a list is none of its items. -/
theorem nodup_cons (hL : L.Lists R) (h : η) :
    (ListNode.head h :: (R h).map ListNode.item : List (ListNode η κ)).Nodup :=
  List.nodup_cons.2 ⟨by simp, (hL.nodup h).map fun _ _ e => ListNode.item.inj e⟩

/-- A poisoned node is on no list. -/
theorem not_mem_of_next (hL : L.Lists R) {x : κ} (hx : L.next (.item x) = none) (h : η) :
    x ∉ R h :=
  fun hm => (hL.chain h).linked (by simp [hm]) hx

/-- What `list_first_entry` finds. -/
theorem first_nil (hL : L.Lists R) {h : η} (hR : R h = []) :
    L.next (.head h) = some (.head h) := by
  simpa [hR] using (hL.chain h).next

/-- The head points to the first item. -/
theorem first_cons (hL : L.Lists R) {h : η} {x : κ} {l : List κ} (hR : R h = x :: l) :
    L.next (.head h) = some (.item x) := by
  simpa [hR] using (hL.chain h).next

variable [DecidableEq η] [DecidableEq κ]

/-- Adding an element that is on no list. -/
theorem add (hL : L.Lists R) {x : κ} (hx : ∀ g, x ∉ R g) (h : η) :
    ∃ L', L.add (.item x) (.head h) = some L' ∧ L'.Lists (Function.update R h (x :: R h)) := by
  obtain ⟨L', hadd, hchain, hframe⟩ := (hL.chain h).add (x := .item x) (by simp [hx h])
    (hL.nodup_cons h)
  refine ⟨L', hadd, fun g => ?_, fun g => ?_, fun {g g' y} hy hy' => ?_⟩
  · by_cases hg : g = h
    · subst hg
      simpa using hchain
    · rw [Function.update_of_ne hg]
      have hother : ∀ z, z ∈ ListNode.head g :: (R g).map ListNode.item →
          L'.next z = L.next z ∧ L'.prev z = L.prev z := by
        intro z hz
        refine hframe z ?_ ?_
        · rintro rfl
          simp [hx g] at hz
        · intro hz'
          cases z with
          | head k => simp_all
          | item y => exact hg (hL.disjoint (by simpa using hz) (by simpa using hz'))
      exact (hL.chain g).congr (fun z hz => (hother z hz).1)
        fun z hz => (hother z (by simpa [or_comm] using hz)).2
  · by_cases hg : g = h
    · subst hg
      simpa using ⟨hx g, hL.nodup g⟩
    · simpa [hg] using hL.nodup g
  · by_cases hg : g = h <;> by_cases hg' : g' = h <;>
      simp only [hg, hg', Function.update_self, Function.update_of_ne, ne_eq, not_false_eq_true,
        List.mem_cons] at hy hy' ⊢
    · rcases hy with rfl | hy
      · exact absurd hy' (hx g')
      · exact hL.disjoint hy hy'
    · rcases hy' with rfl | hy'
      · exact absurd hy (hx g)
      · exact hg (hL.disjoint hy hy')
    · exact hL.disjoint hy hy'

/-- Deleting an element. -/
theorem del (hL : L.Lists R) {x : κ} {h : η} (hx : x ∈ R h) :
    ∃ L', L.del (.item x) = some L' ∧ L'.Lists (Function.update R h ((R h).erase x)) ∧
      L'.next (.item x) = none := by
  obtain ⟨l₁, l₂, hx₁, hR, herase⟩ := List.exists_erase_eq hx
  have hc := hL.chain h
  have hl := hL.nodup_cons h
  rw [hR, List.map_append, List.map_cons] at hc hl
  obtain ⟨L', hdel, hchain, hnone, hframe⟩ := hc.del hl
  refine ⟨L', hdel, ⟨fun g => ?_, fun g => ?_, fun {g g' y} hy hy' => ?_⟩, hnone⟩
  · by_cases hg : g = h
    · subst hg
      simpa [herase] using hchain
    · rw [Function.update_of_ne hg]
      have hother : ∀ z, z ∈ ListNode.head g :: (R g).map ListNode.item →
          L'.next z = L.next z ∧ L'.prev z = L.prev z := by
        intro z hz
        refine hframe z fun hz' => ?_
        cases z with
        | head k => simp_all
        | item y =>
          refine hg (hL.disjoint (x := y) (by simpa using hz) ?_)
          simpa [hR] using hz'
      exact (hL.chain g).congr (fun z hz => (hother z hz).1)
        fun z hz => (hother z (by simpa [or_comm] using hz)).2
  · by_cases hg : g = h
    · subst hg
      simpa using (hL.nodup g).erase x
    · simpa [hg] using hL.nodup g
  · have hsub : ∀ k, Function.update R h ((R h).erase x) k ⊆ R k := by
      intro k
      by_cases hk : k = h
      · subst hk
        simpa using List.erase_subset
      · simp [hk]
    exact hL.disjoint (hsub g hy) (hsub g' hy')

end Lists

/-- `list_for_each_entry` from node `x` to the head `h`, over at most `n` nodes. -/
def entries [DecidableEq η] (L : Links (ListNode η κ)) (h : η) :
    ℕ → ListNode η κ → Option (List κ)
  | 0, _ => none
  | _ + 1, .head g => if g = h then some [] else none
  | n + 1, .item x => (L.next (.item x)).bind fun y => (L.entries h n y).map (x :: ·)

/-- The elements of the list with head `h`. -/
def toList [DecidableEq η] (L : Links (ListNode η κ)) (h : η) (n : ℕ) : Option (List κ) :=
  (L.next (.head h)).bind (L.entries h n)

/-- A walk along the links finds the items. -/
theorem Chain.entries [DecidableEq η] {L : Links (ListNode η κ)} {h : η} {a : ListNode η κ}
    {l : List κ} (hc : L.Chain a (l.map .item) (.head h)) {n : ℕ} (hn : l.length < n) :
    (L.next a).bind (L.entries h n) = some l := by
  induction l generalizing a n with
  | nil =>
    obtain ⟨n, rfl⟩ : ∃ m, n = m + 1 := ⟨n - 1, by omega⟩
    simp [hc.1, Links.entries]
  | cons x l ih =>
    obtain ⟨n, rfl⟩ : ∃ m, n = m + 1 := ⟨n - 1, by omega⟩
    have hx := hc.1.1
    have hrest := ih hc.2 (n := n) (by simpa using hn)
    rw [hx, Option.bind_some, Links.entries]
    cases hnext : L.next (.item x) with
    | none => simp [hnext] at hrest
    | some y => simpa [hnext] using hrest

/-- Enough nodes find the whole list. -/
theorem Lists.toList [DecidableEq η] {L : Links (ListNode η κ)} {R : η → List κ}
    (hL : L.Lists R) {h : η} {n : ℕ} (hn : (R h).length < n) : L.toList h n = some (R h) :=
  (hL.chain h).entries hn

end Links
