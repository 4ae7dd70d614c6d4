/-
# Following paths in a graph of tables

References point to tables, and a table has a reference, or nothing, for each
key.  `follow` reads a path of keys from a root.  Two facts carry a
copy-on-write tree over such a graph:

* two graphs that simulate each other key by key are read alike along every path
  (`follow_rel`), so replacing a table by a copy changes nothing;
* if every reference that may be written to has a label that is the path to it,
  then only that path leads there (`Labelled.eq_of_follow`), so a write in place
  shows up on one path only.
-/

import Mathlib.Data.List.Induction
import Mathlib.Tactic.Common

namespace PathCopy

variable {R K : Type*}

/-- The reference at the end of a path of keys. -/
def follow (child : R → K → Option R) : Option R → List K → Option R
  | r, [] => r
  | none, _ :: _ => none
  | some r, k :: ks => follow child (child r k) ks

variable {child child' : R → K → Option R}

/-- The empty path stays. -/
@[simp] theorem follow_nil (r : Option R) : follow child r [] = r := by
  cases r <;> rfl

/-- From nothing, no path leads anywhere. -/
@[simp] theorem follow_none (ks : List K) : follow child none ks = none := by
  cases ks <;> rfl

@[simp] theorem follow_cons (r : R) (k : K) (ks : List K) :
    follow child (some r) (k :: ks) = follow child (child r k) ks := rfl

/-- A path goes on from where its first part ends. -/
theorem follow_append (r : Option R) (ks ls : List K) :
    follow child r (ks ++ ls) = follow child (follow child r ks) ls := by
  induction ks generalizing r with
  | nil => simp
  | cons k ks ih =>
    cases r with
    | none => simp
    | some r => exact ih (child r k)

/-- A set closed under `child` on which two graphs agree is read alike. -/
theorem follow_congr {p : R → Prop} (hc : ∀ r k c, p r → child r k = some c → p c)
    (heq : ∀ r k, p r → child' r k = child r k) {r : Option R} (hr : ∀ x, r = some x → p x)
    (ks : List K) : follow child' r ks = follow child r ks := by
  induction ks generalizing r with
  | nil => simp
  | cons k ks ih =>
    cases r with
    | none => simp
    | some r =>
      have hp := hr r rfl
      rw [follow_cons, follow_cons, heq r k hp]
      exact ih fun x hx => hc r k x hp hx

/-- What is reached from a closed set is in it. -/
theorem follow_mem {p : R → Prop} (hc : ∀ r k c, p r → child r k = some c → p c) {r : Option R}
    (hr : ∀ x, r = some x → p x) (ks : List K) : ∀ c, follow child r ks = some c → p c := by
  induction ks generalizing r with
  | nil =>
    intro c h
    exact hr c (by simpa using h)
  | cons k ks ih =>
    intro c h
    cases r with
    | none => simp at h
    | some r => exact ih (fun x hx => hc r k x (hr r rfl) hx) c h

/-- The first key of a path, also from nothing. -/
theorem follow_cons' (r : Option R) (k : K) (ks : List K) :
    follow child r (k :: ks) = follow child (follow child r [k]) ks :=
  follow_append r [k] ks

/-- Two graphs related key by key are related along every path. -/
theorem follow_rel {rel : Option R → Option R → Prop}
    (hstep : ∀ x y, rel x y → ∀ k, rel (follow child x [k]) (follow child' y [k]))
    {r r' : Option R} (h : rel r r') (ks : List K) :
    rel (follow child r ks) (follow child' r' ks) := by
  induction ks generalizing r r' with
  | nil => simpa using h
  | cons k ks ih =>
    rw [follow_cons' r, follow_cons' r']
    exact ih (hstep r r' h k)

/-- References in `own` are labelled with the path to them. -/
structure Labelled (child : R → K → Option R) (root : Option R) (own : R → Prop)
    (label : R → List K) : Prop where
  root : ∀ r, root = some r → own r → label r = []
  child : ∀ r k c, child r k = some c → own c → own r ∧ label c = label r ++ [k]

/-- **One path only.**  A path that leads to a labelled reference is its
label. -/
theorem Labelled.eq_of_follow {root : Option R} {own : R → Prop} {label : R → List K}
    (h : Labelled child root own label) {ks : List K} {r : R}
    (hf : follow child root ks = some r) (hr : own r) : label r = ks := by
  induction ks using List.reverseRecOn generalizing r with
  | nil => exact h.root r (by simpa using hf) hr
  | append_singleton ks k ih =>
    rw [follow_append] at hf
    cases hmid : follow child root ks with
    | none => simp [hmid] at hf
    | some x =>
      rw [hmid, follow_cons, follow_nil] at hf
      obtain ⟨hx, hl⟩ := h.child x k r hf hr
      rw [hl, ih hmid hx]

end PathCopy
