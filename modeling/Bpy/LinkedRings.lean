import Mathlib.Data.List.Nodup
import Mathlib.Data.List.Chain
import Mathlib.Logic.Function.Basic

/-!
# Doubly linked rings

Nodes are linked in both directions into a ring through a root node. Putting a node
behind the root and taking a node out are written as the pointer updates that do it, and
shown to be the corresponding operations on the list of nodes. `none` is the nil
pointer, and an operation that follows it has no result.
-/
namespace Bpy.LinkedRings
open List

structure Links (P : Type) where
  next : P → Option P
  prev : P → Option P

variable {P : Type}

section Update

variable [DecidableEq P]

def Links.setNext (l : Links P) (a : P) (b : Option P) : Links P :=
  { l with next := Function.update l.next a b }

def Links.setPrev (l : Links P) (a : P) (b : Option P) : Links P :=
  { l with prev := Function.update l.prev a b }

@[simp] theorem setNext_next (l : Links P) (a : P) (b : Option P) (c : P) :
    (l.setNext a b).next c = if c = a then b else l.next c := Function.update_apply ..

@[simp] theorem setNext_prev (l : Links P) (a : P) (b : Option P) : (l.setNext a b).prev = l.prev := rfl

@[simp] theorem setPrev_prev (l : Links P) (a : P) (b : Option P) (c : P) :
    (l.setPrev a b).prev c = if c = a then b else l.prev c := Function.update_apply ..

@[simp] theorem setPrev_next (l : Links P) (a : P) (b : Option P) : (l.setPrev a b).next = l.next := rfl

def Links.insertAfter (l : Links P) (a x : P) : Option (Links P) :=
  match l.next a with
  | none => none
  | some n => some ((((l.setNext a (some x)).setPrev x (some a)).setNext x (some n)).setPrev n (some x))

/-- Take the node `x` out, in the order of the updates `x.next.prev = x.prev` and
`x.prev.next = x.next`. -/
def Links.unlink (l : Links P) (x : P) : Option (Links P) :=
  match l.next x with
  | none => none
  | some n =>
    let l := l.setPrev n (l.prev x)
    match l.prev x with
    | none => none
    | some p => some (((l.setNext p (l.next x)).setNext x none).setPrev x none)

end Update

/-- The node `b` follows `a`. -/
def Joined (l : Links P) (a b : P) : Prop := l.next a = some b ∧ l.prev b = some a

/-- The nodes, in this order, and `root` form a ring. -/
structure Ring (l : Links P) (root : P) (nodes : List P) : Prop where
  joined : (root :: (nodes ++ [root])).IsChain (Joined l)
  nodup : (root :: nodes).Nodup

variable {l l' : Links P} {root x : P} {nodes left right : List P}

/-- Only the outgoing links of all nodes but the last and the incoming links of all but the
first matter. -/
theorem isChain_joined_congr {xs : List P} (hnext : ∀ a ∈ xs.dropLast, l'.next a = l.next a)
    (hprev : ∀ b ∈ xs.tail, l'.prev b = l.prev b) (h : xs.IsChain (Joined l)) : xs.IsChain (Joined l') := by
  induction xs with
  | nil => exact List.IsChain.nil
  | cons a xs ih =>
    cases xs with
    | nil => exact List.IsChain.singleton a
    | cons b xs =>
      obtain ⟨hab, hrest⟩ := isChain_cons_cons.mp h
      rw [dropLast_cons_cons] at hnext
      rw [tail_cons] at hprev
      apply isChain_cons_cons.mpr
      constructor
      · exact ⟨(hnext a mem_cons_self).trans hab.1, (hprev b mem_cons_self).trans hab.2⟩
      · apply ih _ _ hrest
        · intro c hc
          exact hnext c (mem_cons_of_mem a hc)
        · intro c hc
          exact hprev c (mem_cons_of_mem b hc)

theorem ring_nil (hnext : l.next root = some root) (hprev : l.prev root = some root) : Ring l root [] where
  joined := isChain_pair.mpr ⟨hnext, hprev⟩
  nodup := nodup_singleton root

def Links.following (l : Links P) : ℕ → P → List P
  | 0, _ => []
  | n + 1, a =>
    match l.next a with
    | none => []
    | some b => b :: l.following n b

theorem following_of_isChain (h : (root :: (nodes ++ right)).IsChain (Joined l)) :
    l.following nodes.length root = nodes := by
  induction nodes generalizing root with
  | nil => rfl
  | cons b nodes ih =>
    rw [cons_append, isChain_cons_cons] at h
    simp only [length_cons, Links.following, h.1.1, ih h.2]

theorem Ring.following (h : Ring l root nodes) : l.following nodes.length root = nodes :=
  following_of_isChain h.joined

theorem Ring.prev_root (h : Ring l root (nodes ++ [x])) : l.prev root = some x := by
  have hchain := h.joined
  rw [append_assoc, ← cons_append] at hchain
  exact (isChain_pair.mp (isChain_append.mp hchain).2.1).2

variable [DecidableEq P]

theorem Ring.insertAfter (h : Ring l root nodes) (hx : x ∉ root :: nodes) :
    ∃ l', l.insertAfter root x = some l' ∧ Ring l' root (x :: nodes) := by
  obtain ⟨n, rest, hn⟩ : ∃ n rest, nodes ++ [root] = n :: rest := by
    cases nodes with
    | nil => exact ⟨root, [], rfl⟩
    | cons a nodes => exact ⟨a, nodes ++ [root], rfl⟩
  have hchain := h.joined
  rw [hn] at hchain
  obtain ⟨hroot, hrest⟩ := isChain_cons_cons.mp hchain
  have hnodup : (n :: rest).Nodup := by
    rw [← hn]
    exact (perm_append_singleton root nodes).nodup_iff.mpr h.nodup
  have hmem : ∀ a ∈ n :: rest, a ≠ x := by
    intro a ha heq
    rw [← hn, (perm_append_singleton root nodes).mem_iff, heq] at ha
    exact hx ha
  have hnx : n ≠ x := hmem n mem_cons_self
  have hrx : root ≠ x := fun heq => hx (heq ▸ mem_cons_self)
  refine ⟨_, by rw [Links.insertAfter, hroot.1], ?_, ?_⟩
  · rw [cons_append, hn]
    apply isChain_cons_cons.mpr
    constructor
    · simp [Joined, hrx, hnx.symm]
    · apply isChain_cons_cons.mpr
      constructor
      · simp [Joined]
      · apply isChain_joined_congr _ _ hrest
        · intro a ha
          have hax : a ≠ x := hmem a (dropLast_subset _ ha)
          rw [← hn, dropLast_concat] at ha
          have har : a ≠ root := fun heq => (nodup_cons.mp h.nodup).1 (heq ▸ ha)
          simp [hax, har]
        · intro b hb
          have hbx : b ≠ x := hmem b (mem_cons_of_mem n hb)
          have hbn : b ≠ n := fun heq => (nodup_cons.mp hnodup).1 (heq ▸ hb)
          simp [hbx, hbn]
  · rw [(List.Perm.swap x root nodes).nodup_iff]
    exact nodup_cons.mpr ⟨hx, h.nodup⟩

theorem Ring.unlink (h : Ring l root (left ++ x :: right)) :
    ∃ l', l.unlink x = some l' ∧ Ring l' root (left ++ right) := by
  obtain ⟨front, p, hp⟩ : ∃ front p, root :: left = front ++ [p] :=
    ⟨_, _, (dropLast_append_getLast (cons_ne_nil root left)).symm⟩
  obtain ⟨n, rest, hn⟩ : ∃ n rest, right ++ [root] = n :: rest := by
    cases right with
    | nil => exact ⟨root, [], rfl⟩
    | cons a right => exact ⟨a, right ++ [root], rfl⟩
  have hchain : ((root :: left) ++ x :: n :: rest).IsChain (Joined l) := by
    have := h.joined
    rwa [append_assoc, cons_append, hn, ← cons_append] at this
  obtain ⟨hleft, hright, hlink⟩ := isChain_append.mp hchain
  obtain ⟨hxn, hrest⟩ := isChain_cons_cons.mp hright
  have hpx : Joined l p x := hlink p (by simp [hp]) x rfl
  -- the three parts of the ring have no node in common
  have hnodup : ((root :: left) ++ x :: right).Nodup := h.nodup
  obtain ⟨hnodupL, hnodupR, hdisj⟩ := nodup_append.mp hnodup
  have hxR : x ∉ right := (nodup_cons.mp hnodupR).1
  have hxL : x ∉ root :: left := fun hx => hdisj x hx x mem_cons_self rfl
  have hdisjR : ∀ a ∈ root :: left, a ∉ right := fun a ha har => hdisj a ha a (mem_cons_of_mem x har) rfl
  have hpL : p ∈ root :: left := by simp [hp]
  have hnodupB : (n :: rest).Nodup := by
    rw [← hn]
    apply (perm_append_singleton root right).nodup_iff.mpr
    exact nodup_cons.mpr ⟨hdisjR root mem_cons_self, (nodup_cons.mp hnodupR).2⟩
  have hmemB : ∀ a ∈ n :: rest, a ∈ right ∨ a = root := by
    intro a ha
    simpa [← hn] using ha
  have hneB : ∀ a ∈ n :: rest, a ≠ x := by
    intro a ha heq
    rcases hmemB a ha with har | har
    · exact hxR (heq ▸ har)
    · exact hxL (heq ▸ har ▸ mem_cons_self)
  have hnx : n ≠ x := hneB n mem_cons_self
  have hpne : p ≠ x := fun heq => hxL (heq ▸ hpL)
  have hunlink : l.unlink x = some ((((l.setPrev n (some p)).setNext p (some n)).setNext x none).setPrev x none) := by
    simp [Links.unlink, hxn.1, hpx.2, hnx.symm]
  refine ⟨_, hunlink, ?_, ?_⟩
  · rw [append_assoc, ← cons_append, hn]
    apply isChain_append.mpr
    refine ⟨?_, ?_, ?_⟩
    · apply isChain_joined_congr _ _ hleft
      · intro a ha
        have hax : a ≠ x := fun heq => hxL (heq ▸ dropLast_subset _ ha)
        have hap : a ≠ p := by
          intro heq
          rw [hp, dropLast_concat] at ha
          rw [hp] at hnodupL
          exact (nodup_append.mp hnodupL).2.2 a ha p (mem_singleton_self p) heq
        simp [hax, hap]
      · intro b hb
        have hbL : b ∈ root :: left := mem_of_mem_tail hb
        have hbx : b ≠ x := fun heq => hxL (heq ▸ hbL)
        have hbn : b ≠ n := by
          intro heq
          rcases hmemB n mem_cons_self with hr | hr
          · exact hdisjR b hbL (heq ▸ hr)
          · exact (nodup_cons.mp hnodupL).1 (by rw [← hr, ← heq]; exact hb)
        simp [hbx, hbn]
    · apply isChain_joined_congr _ _ hrest
      · intro a ha
        have hax : a ≠ x := hneB a (dropLast_subset _ ha)
        have hap : a ≠ p := by
          intro heq
          rw [← hn, dropLast_concat] at ha
          exact hdisjR p hpL (heq ▸ ha)
        simp [hax, hap]
      · intro b hb
        have hbx : b ≠ x := hneB b (mem_cons_of_mem n hb)
        have hbn : b ≠ n := fun heq => (nodup_cons.mp hnodupB).1 (heq ▸ hb)
        simp [hbx, hbn]
    · intro a ha b hb
      have ha : a = p := by simpa [hp, eq_comm] using ha
      have hb : b = n := by simpa [eq_comm] using hb
      subst ha hb
      simp [Joined, hpne, hnx]
  · exact hnodup.sublist (List.Sublist.append_left (sublist_cons_self x right) (root :: left))

end Bpy.LinkedRings
