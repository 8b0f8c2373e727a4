import Bpy.RemoteProtocol
import Mathlib.Data.List.Nodup

/-!
# Replies reach their callers

The map `calls` is in step with the calls in progress, and every answer that is still on
its way belongs to a call that waits for it, unless the client is closed.
-/
namespace Bpy.RemoteCalls
open ByteWords InteractionPrograms ContentStore RemoteMessages RemoteMessageRoundTrip Interleaving Function
  RemoteClient RemoteProtocol
open List hiding after

variable {bytes : Bytes} {past past' : List ClientEvent} {i : ℕ} {w w' : World} {transit : Transit}
  {maxsz : UInt32}

section Frames

variable {room : ℕ}

theorem shortString_of_packField {k : Kind} {v : k.Value}
    (h : packField k v room = .ok bytes) : ShortString k v := by
  cases k with
  | string =>
    rw [packField] at h
    split at h
    · cases h
    · split at h
      · cases h
      · next hshort => exact Nat.le_of_not_lt hshort
  | _ => trivial

theorem shortStrings_of_packFields {ks : List Kind} {vs : Values ks}
    (h : packFields ks vs room = .ok bytes) : ShortStrings ks vs := by
  induction ks generalizing room bytes with
  | nil => trivial
  | cons k ks ih =>
    obtain ⟨v, vs⟩ := vs
    rw [packFields] at h
    split at h
    · cases h
    · next hfield =>
      split at h
      · cases h
      · next hfields => exact ⟨shortString_of_packField hfield, ih hfields⟩

theorem frame_spec {m : Message} (h : frame m = some bytes) : ∃ head body,
    bytes = head ++ body ∧ head.length = 4 ∧ beNat head = 4 + body.length ∧ unpackMessage bytes = .ok m := by
  rw [frame] at h
  split at h
  · next hsize =>
    cases hpack : packMessage m (size m) with
    | error e => simp [hpack, Except.toOption] at h
    | ok frame =>
      have hshort : ShortStrings m.type.kinds m.vals := by
        rw [packMessage] at hpack
        split at hpack
        · cases hpack
        · split at hpack
          · cases hpack
          · next hfields => exact shortStrings_of_packFields hfields
      simp only [hpack, Except.toOption, Option.some.injEq] at h
      obtain ⟨head, body, hpack', hhead, hword, -, hunpack⟩ :=
        packMessage_spec hshort (Nat.le_of_eq (Nat.mod_eq_of_lt hsize).symm)
      rw [hpack, Except.ok.injEq] at hpack'
      rw [← h, hpack']
      exact ⟨head, body, rfl, hhead, hword, hunpack⟩
  · cases h

end Frames

section Maps

variable {κ υ : Type} [DecidableEq κ] {m : List (κ × υ)} {k k' : κ} {v : υ}

theorem mem_of_lookup (h : m.lookup k = some v) : (k, v) ∈ m := by
  obtain ⟨l₁, l₂, rfl, -⟩ := List.lookup_eq_some_iff.mp h
  simp

theorem lookup_of_mem (hm : (m.map Prod.fst).Nodup) (h : (k, v) ∈ m) : m.lookup k = some v := by
  induction m with
  | nil => cases h
  | cons kv m ih =>
    rw [map_cons, nodup_cons] at hm
    rw [lookup_cons]
    rcases mem_cons.mp h with rfl | h
    · simp
    · have hne : k ≠ kv.1 := by
        intro hk
        apply hm.1
        rw [← hk]
        exact mem_map_of_mem (f := Prod.fst) h
      rw [beq_eq_false_iff_ne.mpr hne]
      exact ih hm.2 h

theorem eq_of_mem_of_mem (hm : (m.map Prod.fst).Nodup) {v' : υ} (h : (k, v) ∈ m) (h' : (k, v') ∈ m) : v = v' := by
  have hv := lookup_of_mem hm h
  rw [lookup_of_mem hm h'] at hv
  exact (Option.some.inj hv).symm

theorem not_mem_of_lookup (h : m.lookup k = none) : (k, v) ∉ m := by
  intro hmem
  have hne := List.lookup_eq_none_iff.mp h _ hmem
  simp at hne

theorem assign_of_lookup (h : m.lookup k = none) : assign m k v = (k, v) :: m := by
  rw [assign, filter_eq_self.mpr]
  intro kv hkv
  rw [decide_eq_true_eq]
  rintro rfl
  exact not_mem_of_lookup h hkv

theorem mem_delete : (k, v) ∈ delete m k' ↔ (k, v) ∈ m ∧ k ≠ k' := by
  rw [delete, mem_filter, decide_eq_true_eq]

theorem lookup_delete (m : List (κ × υ)) (k k' : κ) :
    (delete m k).lookup k' = if k' = k then none else m.lookup k' := by
  induction m with
  | nil => split <;> rfl
  | cons kv m ih =>
    rw [delete] at ih ⊢
    by_cases hkv : kv.1 = k
    · rw [filter_cons_of_neg (by simpa using hkv), ih]
      split
      · rfl
      · next hk =>
        rw [lookup_cons, beq_eq_false_iff_ne.mpr (fun heq => hk (heq.trans hkv))]
    · rw [filter_cons_of_pos (by simpa using hkv), lookup_cons, lookup_cons, ih]
      by_cases hk : k' = kv.1
      · rw [beq_iff_eq.mpr hk, if_neg (fun heq : k' = k => hkv (hk.symm.trans heq)),
          if_neg (fun heq : k' = k => hkv (hk.symm.trans heq))]
      · rw [beq_eq_false_iff_ne.mpr hk]

theorem lookup_assign (m : List (κ × υ)) (k k' : κ) (v : υ) :
    (assign m k v).lookup k' = if k' = k then some v else m.lookup k' := by
  rw [assign, lookup_cons]
  split
  · next heq =>
    rw [if_pos (beq_iff_eq.mp heq)]
  · next heq =>
    have hdelete := lookup_delete m k k'
    rw [delete] at hdelete
    rw [hdelete, if_neg (beq_eq_false_iff_ne.mp heq), if_neg (beq_eq_false_iff_ne.mp heq)]

theorem map_fst_delete : (delete m k').map Prod.fst = (m.map Prod.fst).filter (· ≠ k') := by
  rw [delete, filter_map]
  rfl

theorem map_snd_erase {α : Type} [DecidableEq α] {l : List (α × κ)} {a : α} (hl : (l.map Prod.snd).Nodup)
    (h : (a, k) ∈ l) : (l.erase (a, k)).map Prod.snd = (l.map Prod.snd).filter (· ≠ k) := by
  have hnodup : l.Nodup := List.Nodup.of_map _ hl
  have heq : l.erase (a, k) = l.filter ((fun b => decide (b ≠ k)) ∘ Prod.snd) := by
    rw [hnodup.erase_eq_filter]
    apply filter_congr
    intro x hx
    have hiff : x = (a, k) ↔ x.2 = k := by
      constructor
      · intro hxk
        rw [hxk]
      · intro hxk
        exact inj_on_of_nodup_map hl hx h hxk
    rw [Bool.eq_iff_iff, bne_iff_ne, comp_apply, decide_eq_true_iff]
    exact not_congr hiff
  rw [heq, filter_map]

end Maps

section Registered

/-- The calls in progress: the thread and the id. -/
def underway : List ClientEvent → List (ℕ × UInt16)
  | [] => []
  | .act i _ .newCall (.ok (_, mid)) :: past => (i, mid) :: underway past
  | .act i _ (.deleteCall mid) _ :: past => (underway past).erase (i, mid)
  | _ :: past => underway past

theorem skipZero_ne (mid : UInt16) : skipZero mid ≠ 0 := by
  rw [skipZero]
  split
  · next hzero => rw [hzero]; decide
  · next hne => exact hne

theorem searchMid_ok {count : UInt16} {calls : List (UInt16 × ℕ)} {rounds : ℕ} {mid mid' : UInt16}
    (h : searchMid count calls rounds mid = some (.ok mid')) : mid' ≠ 0 ∧ calls.lookup mid' = none := by
  induction rounds generalizing mid with
  | zero => cases h
  | succ rounds ih =>
    rw [searchMid] at h
    split at h
    · cases h
    · split at h
      · next hfree =>
        cases h
        exact ⟨skipZero_ne mid, hfree⟩
      · exact ih h

theorem newCall_ok {c c' : Client} {r : ℕ × UInt16} (h : c.newCall = some (.ok r, c')) :
    ∃ mid, mid ≠ 0 ∧ c.calls.lookup mid = none ∧ c.closed = false ∧ r = (c.made, mid) ∧ c' = { c with
      calls := (mid, c.made) :: c.calls
      chans := update c.chans c.made Chan.new
      made := c.made + 1 } := by
  rw [Client.newCall] at h
  split at h
  · cases h
  · next hopen =>
    split at h
    · cases h
    · cases h
    · next mid hsearch =>
      obtain ⟨hmid, hfree⟩ := searchMid_ok hsearch
      cases h
      exact ⟨mid, hmid, hfree, Bool.not_eq_true _ ▸ hopen, rfl, by rw [assign_of_lookup hfree]⟩

theorem newCall_error {c c' : Client} {e : GoError} (h : c.newCall = some (.error e, c')) : c' = c := by
  rw [Client.newCall] at h
  split at h
  · cases h
    rfl
  · split at h <;> cases h
    rfl

/-- The map `calls` is in step with the calls in progress. -/
structure Registered (slot : ℕ → Option (ℕ × UInt16)) (c : Client) (past : List ClientEvent) : Prop where
  keys : (c.calls.map Prod.fst).Nodup
  ids : (underway past).map Prod.snd = c.calls.map Prod.fst
  slot_of_underway : ∀ {i mid}, (i, mid) ∈ underway past → ∃ ch, slot i = some (ch, mid)
  entry : ∀ {i ch mid}, slot i = some (ch, mid) → (mid, ch) ∈ c.calls ∧ mid ≠ 0
  owner : ∀ {mid ch}, (mid, ch) ∈ c.calls → ∃ i, slot i = some (ch, mid)
  apart : ∀ {i j ch mid mid'}, slot i = some (ch, mid) → slot j = some (ch, mid') → i = j
  fresh : ∀ {mid ch}, (mid, ch) ∈ c.calls → ch < c.made
  closing : ∀ {mid ch}, (mid, ch) ∈ c.calls → (c.chans ch).closed = c.closed

namespace Registered

variable {slot : ℕ → Option (ℕ × UInt16)} {c c' : Client} {j ch ch' : ℕ} {mid mid' : UInt16}
  (h : Registered slot c past)
include h

theorem mid_inj (hi : slot i = some (ch, mid)) (hj : slot j = some (ch', mid)) : i = j := by
  have hch := eq_of_mem_of_mem h.keys (h.entry hi).1 (h.entry hj).1
  subst hch
  exact h.apart hi hj

theorem congr (hcalls : c'.calls = c.calls) (hmade : c'.made = c.made)
    (hclosing : ∀ mid ch, (mid, ch) ∈ c.calls → (c'.chans ch).closed = c'.closed)
    (hpast : underway past' = underway past) : Registered slot c' past' where
  keys := by rw [hcalls]; exact h.keys
  ids := by rw [hcalls, hpast]; exact h.ids
  slot_of_underway := by rw [hpast]; exact h.slot_of_underway
  entry := by rw [hcalls]; exact h.entry
  owner := by rw [hcalls]; exact h.owner
  apart := h.apart
  fresh := by rw [hcalls, hmade]; exact h.fresh
  closing := by rw [hcalls]; exact hclosing _ _

theorem newCall_got {r : ℕ × UInt16} (hnew : c.newCall = some (.ok r, c'))
    (hj : slot j = some (ch, mid)) : (c'.chans ch).got = (c.chans ch).got := by
  obtain ⟨mid', -, -, -, -, rfl⟩ := newCall_ok hnew
  change (update c.chans c.made Chan.new ch).got = _
  rw [update_of_ne (Nat.ne_of_lt (h.fresh (h.entry hj).1))]

theorem newCall (hi : slot i = none) {r : ℕ × UInt16} (hnew : c.newCall = some (.ok r, c')) (ch : Choice) :
    Registered (update slot i (some r)) c' (.act i ch .newCall (.ok r) :: past) := by
  obtain ⟨mid, hmid, hfree, hopen, rfl, rfl⟩ := newCall_ok hnew
  have hslot {j : ℕ} {x : ℕ × UInt16} (hj : slot j = some x) : j ≠ i := by
    rintro rfl
    rw [hi] at hj
    cases hj
  refine ⟨?_, ?_, ?_, ?_, ?_, ?_, ?_, ?_⟩
  · rw [map_cons, nodup_cons]
    refine ⟨?_, h.keys⟩
    intro hmem
    obtain ⟨⟨mid', ch'⟩, hkv, hmid'⟩ := mem_map.mp hmem
    cases hmid'
    exact not_mem_of_lookup hfree hkv
  · rw [underway, map_cons, map_cons, h.ids]
  · intro j mid' hj
    rw [underway] at hj
    rcases mem_cons.mp hj with hj | hj
    · cases hj
      exact ⟨_, update_self _ _ _⟩
    · obtain ⟨ch, hch⟩ := h.slot_of_underway hj
      exact ⟨ch, by rw [update_of_ne (hslot hch)]; exact hch⟩
  · intro j ch' mid' hj
    by_cases hji : j = i
    · subst hji
      rw [update_self] at hj
      cases hj
      exact ⟨mem_cons_self, hmid⟩
    · rw [update_of_ne hji] at hj
      exact ⟨mem_cons_of_mem _ (h.entry hj).1, (h.entry hj).2⟩
  · intro mid' ch' hmem
    rcases mem_cons.mp hmem with hmem | hmem
    · cases hmem
      exact ⟨i, update_self _ _ _⟩
    · obtain ⟨j, hj⟩ := h.owner hmem
      exact ⟨j, by rw [update_of_ne (hslot hj)]; exact hj⟩
  · -- the new channel is not that of an older call
    have hnew {j : ℕ} {ch' : ℕ} {mid' : UInt16} (hj : slot j = some (ch', mid')) : ch' ≠ c.made :=
      Nat.ne_of_lt (h.fresh (h.entry hj).1)
    intro j k ch' mid' mid'' hj hk
    by_cases hji : j = i
    · by_cases hki : k = i
      · rw [hji, hki]
      · subst hji
        rw [update_self] at hj
        rw [update_of_ne hki] at hk
        cases hj
        exact absurd rfl (hnew hk)
    · rw [update_of_ne hji] at hj
      by_cases hki : k = i
      · subst hki
        rw [update_self] at hk
        cases hk
        exact absurd rfl (hnew hj)
      · rw [update_of_ne hki] at hk
        exact h.apart hj hk
  · intro mid' ch' hmem
    rcases mem_cons.mp hmem with hmem | hmem
    · cases hmem
      exact Nat.lt_succ_self _
    · exact Nat.lt_succ_of_lt (h.fresh hmem)
  · intro mid' ch' hmem
    rcases mem_cons.mp hmem with hmem | hmem
    · cases hmem
      change (update c.chans c.made Chan.new c.made).closed = c.closed
      rw [update_self, hopen]
      rfl
    · change (update c.chans c.made Chan.new ch').closed = c.closed
      rw [update_of_ne (Nat.ne_of_lt (h.fresh hmem))]
      exact h.closing hmem

theorem deleteCall (hi : slot i = some (ch, mid)) (ch : Choice) :
    Registered (update slot i none) (c.deleteCall mid) (.act i ch (.deleteCall mid) () :: past) := by
  have hslot {j ch' : ℕ} {mid' : UInt16} (hj : slot j = some (ch', mid')) (hne : mid' ≠ mid) : j ≠ i := by
    rintro rfl
    rw [hi] at hj
    cases hj
    exact hne rfl
  have hnodup : (underway past).Nodup := by
    apply List.Nodup.of_map Prod.snd
    rw [h.ids]
    exact h.keys
  -- the call that is recorded under the id is that of the thread
  have hmem : (i, mid) ∈ underway past := by
    have hkey : mid ∈ (underway past).map Prod.snd := by
      rw [h.ids]
      exact mem_map_of_mem (f := Prod.fst) (h.entry hi).1
    obtain ⟨⟨j, _⟩, hj, rfl⟩ := mem_map.mp hkey
    obtain ⟨ch', hch'⟩ := h.slot_of_underway hj
    rw [h.mid_inj hi hch']
    exact hj
  refine ⟨?_, ?_, ?_, ?_, ?_, ?_, ?_, ?_⟩
  · rw [Client.deleteCall, map_fst_delete]
    exact h.keys.filter _
  · rw [underway, Client.deleteCall, map_fst_delete, ← h.ids]
    exact map_snd_erase (by rw [h.ids]; exact h.keys) hmem
  · intro j mid' hj
    rw [underway, hnodup.mem_erase_iff] at hj
    obtain ⟨ch', hch'⟩ := h.slot_of_underway hj.2
    refine ⟨ch', ?_⟩
    rw [update_of_ne]
    · exact hch'
    · rintro rfl
      rw [hi] at hch'
      cases hch'
      exact hj.1 rfl
  · intro j ch' mid' hj
    by_cases hji : j = i
    · subst hji
      rw [update_self] at hj
      cases hj
    · rw [update_of_ne hji] at hj
      refine ⟨mem_delete.mpr ⟨(h.entry hj).1, ?_⟩, (h.entry hj).2⟩
      rintro rfl
      exact hji (h.mid_inj hj hi)
  · intro mid' ch' hmem'
    obtain ⟨hmem', hne⟩ := mem_delete.mp hmem'
    obtain ⟨j, hj⟩ := h.owner hmem'
    exact ⟨j, by rw [update_of_ne (hslot hj hne)]; exact hj⟩
  · intro j k ch' mid' mid'' hj hk
    by_cases hji : j = i
    · subst hji
      rw [update_self] at hj
      cases hj
    · by_cases hki : k = i
      · subst hki
        rw [update_self] at hk
        cases hk
      · rw [update_of_ne hji] at hj
        rw [update_of_ne hki] at hk
        exact h.apart hj hk
  · intro mid' ch' hmem'
    exact h.fresh (mem_delete.mp hmem').1
  · intro mid' ch' hmem'
    exact h.closing (mem_delete.mp hmem').1

end Registered

end Registered

section Awaited

/-- The thread waits for a message with the id, and has not been handed one. -/
def Expects (waits : ℕ → Option (ℕ × UInt16)) (c : Client) (i : ℕ) (mid : UInt16) : Prop :=
  ∃ ch, waits i = some (ch, mid) ∧ (c.chans ch).got = none

/-- Messages on their way to the client, with the threads that they are answers for. The
message that the reader has begun to read is the first of them. -/
abbrev Transit := List (Option ℕ × Message)

def wire (transit : Transit) : Bytes := transit.flatMap (fun t => (frame t.2).getD [])

/-- The threads with a request that is not answered or with an answer on its way. -/
def concerned (w : World) (transit : Transit) : List ℕ :=
  w.unanswered.map Unanswered.thread ++ transit.filterMap Prod.fst

/-- Every unanswered request and every answer on its way belongs to a call that waits for it,
and to no other. -/
structure Awaited (waits : ℕ → Option (ℕ × UInt16)) (w : World) (past : List ClientEvent)
    (transit : Transit) : Prop where
  once : (concerned w transit).Nodup
  asked : ∀ {u}, u ∈ w.unanswered → Expects waits w.client u.thread (getMessageId u.request)
  sent : ∀ {i m}, (some i, m) ∈ transit → Expects waits w.client i (getMessageId m) ∧ .env (.answer i m) ∈ past
  other : ∀ {m}, (none, m) ∈ transit → getMessageId m = 0
  whole : ∀ {t}, t ∈ transit → ∃ bytes, frame t.2 = some bytes

/-- What is in the receive buffer and what the connection still has to deliver, by where the
reader is. -/
def Flow (w : World) (transit : Transit) : Reading → Prop
  | .between => w.inbox = wire transit
  | .headed head => head.length = 4 ∧ w.client.rBuf.take 4 = head ∧ head ++ w.inbox = wire transit
  | .holding bytes => w.client.rBuf.take bytes.length = bytes ∧
      ∃ t rest, transit = t :: rest ∧ frame t.2 = some bytes ∧ w.inbox = wire rest
  | .ended => True

variable {waits waits' : ℕ → Option (ℕ × UInt16)} {transit' : Transit}

theorem wire_append (transit transit' : Transit) : wire (transit ++ transit') = wire transit ++ wire transit' :=
  flatMap_append

theorem wire_cons {t : Option ℕ × Message} {bytes : Bytes} (ht : frame t.2 = some bytes) (rest : Transit) :
    wire (t :: rest) = bytes ++ wire rest := by
  rw [wire, flatMap_cons, ht]
  rfl

namespace Awaited

variable (h : Awaited waits w past transit)
include h

theorem mem_concerned (hi : i ∈ concerned w transit) : ∃ mid, Expects waits w.client i mid := by
  rcases mem_append.mp hi with hi | hi
  · obtain ⟨u, hu, rfl⟩ := mem_map.mp hi
    exact ⟨_, h.asked hu⟩
  · obtain ⟨⟨t, m⟩, ht, rfl⟩ := mem_filterMap.mp hi
    exact ⟨_, (h.sent ht).1⟩

theorem congr (hun : w'.unanswered = w.unanswered)
    (hwaits : ∀ {i ch mid}, i ∈ concerned w transit → waits i = some (ch, mid) →
      waits' i = some (ch, mid) ∧ (w'.client.chans ch).got = (w.client.chans ch).got)
    (hpast : ∀ ev ∈ past, ev ∈ past') : Awaited waits' w' past' transit := by
  have hexpects {i : ℕ} {mid : UInt16} (hi : i ∈ concerned w transit) (h : Expects waits w.client i mid) :
      Expects waits' w'.client i mid := by
    obtain ⟨ch, hch, hgot⟩ := h
    exact ⟨ch, (hwaits hi hch).1, by rw [(hwaits hi hch).2, hgot]⟩
  refine ⟨?_, ?_, ?_, h.other, h.whole⟩
  · rw [concerned, hun]
    exact h.once
  · intro u hu
    rw [hun] at hu
    exact hexpects (mem_append_left _ (mem_map_of_mem hu)) (h.asked hu)
  · intro i m hm
    have hi : i ∈ transit.filterMap Prod.fst := mem_filterMap.mpr ⟨_, hm, rfl⟩
    exact ⟨hexpects (mem_append_right _ hi) (h.sent hm).1, hpast _ (h.sent hm).2⟩

theorem sublist (hsub : transit'.Sublist transit) :
    Awaited waits w past transit' where
  once := h.once.sublist ((List.Sublist.refl _).append (hsub.filterMap _))
  asked := h.asked
  sent hm := h.sent (hsub.subset hm)
  other hm := h.other (hsub.subset hm)
  whole ht := h.whole (hsub.subset ht)

theorem update (hi : i ∉ concerned w transit) {x : Option (ℕ × UInt16)}
    (hpast : ∀ ev ∈ past, ev ∈ past') : Awaited (update waits i x) w past' transit := by
  apply h.congr rfl _ hpast
  intro j ch mid hmem hj
  rw [update_of_ne]
  · exact ⟨hj, rfl⟩
  · rintro rfl
    exact hi hmem

theorem ask (hi : i ∉ concerned w transit) {m : Message} {opened : Bool}
    (hexpects : Expects waits w.client i (getMessageId m)) :
    Awaited waits { w with unanswered := ⟨i, m, opened⟩ :: w.unanswered } past transit where
  once := nodup_cons.mpr ⟨hi, h.once⟩
  asked hu := by
    rcases mem_cons.mp hu with rfl | hu
    · exact hexpects
    · exact h.asked hu
  sent := h.sent
  other := h.other
  whole := h.whole

theorem answer {u : Unanswered} {m : Message} {bytes inbox : Bytes}
    (hu : w.unanswered.find? (fun u => u.thread == i) = some u) (hm : frame m = some bytes)
    (hid : getMessageId m = getMessageId u.request) :
    Awaited waits { w with inbox := inbox, unanswered := w.unanswered.eraseP (fun u => u.thread == i) }
      (.env (.answer i m) :: past) (transit ++ [(some i, m)]) := by
  obtain ⟨hthread, before, after, hsplit, hbefore⟩ := List.find?_eq_some_iff_append.mp hu
  rw [beq_iff_eq] at hthread
  have herase : w.unanswered.eraseP (fun u => u.thread == i) = before ++ after := by
    rw [hsplit, eraseP_append_right _ (fun u hu => by simpa using hbefore u hu),
      eraseP_cons_of_pos (by simpa using hthread)]
  have hmem : u ∈ w.unanswered := by
    rw [hsplit]
    simp
  refine ⟨?_, ?_, ?_, ?_, ?_⟩
  · -- the thread moves from the unanswered requests to the answers
    have hperm : (concerned w transit).Perm
        ((before ++ after).map Unanswered.thread ++ (transit ++ [(some i, m)]).filterMap Prod.fst) := by
      rw [concerned, hsplit, filterMap_append, map_append, map_append, map_cons, hthread,
        ← append_assoc]
      exact (perm_middle.append_right _).trans (perm_append_singleton _ _).symm
    rw [concerned, herase]
    exact hperm.nodup h.once
  · intro u' hu'
    exact h.asked (mem_of_mem_eraseP hu')
  · intro j m' hm'
    rcases mem_append.mp hm' with hm' | hm'
    · exact ⟨(h.sent hm').1, mem_cons_of_mem _ (h.sent hm').2⟩
    · rw [mem_singleton] at hm'
      cases hm'
      have hexpects := h.asked hmem
      rw [hthread, ← hid] at hexpects
      exact ⟨hexpects, mem_cons_self⟩
  · intro m' hm'
    rcases mem_append.mp hm' with hm' | hm'
    · exact h.other hm'
    · rw [mem_singleton] at hm'
      cases hm'
  · intro t ht
    rcases mem_append.mp ht with ht | ht
    · exact h.whole ht
    · rw [mem_singleton] at ht
      rw [ht]
      exact ⟨bytes, hm⟩

theorem notify {m : Message} {bytes inbox : Bytes} (hm : frame m = some bytes) (hid : getMessageId m = 0) :
    Awaited waits { w with inbox := inbox } (.env (.notify m) :: past) (transit ++ [(none, m)]) := by
  refine ⟨?_, h.asked, ?_, ?_, ?_⟩
  · have hsame : (transit ++ [(none, m)]).filterMap Prod.fst = transit.filterMap Prod.fst := by
      rw [filterMap_append]
      simp
    rw [concerned, hsame]
    exact h.once
  · intro j m' hm'
    rcases mem_append.mp hm' with hm' | hm'
    · exact ⟨(h.sent hm').1, mem_cons_of_mem _ (h.sent hm').2⟩
    · rw [mem_singleton] at hm'
      cases hm'
  · intro m' hm'
    rcases mem_append.mp hm' with hm' | hm'
    · exact h.other hm'
    · rw [mem_singleton] at hm'
      cases hm'
      exact hid
  · intro t ht
    rcases mem_append.mp ht with ht | ht
    · exact h.whole ht
    · rw [mem_singleton] at ht
      rw [ht]
      exact ⟨bytes, hm⟩

end Awaited

end Awaited

section Flow

variable {c : Choice}

theorem Flow.congr {st : Reading} (h : Flow w transit st) (hbuf : w'.client.rBuf = w.client.rBuf)
    (hinbox : w'.inbox = w.inbox) : Flow w' transit st := by
  cases st with
  | between => exact hinbox.trans h
  | headed head => exact ⟨h.1, by rw [hbuf]; exact h.2.1, by rw [hinbox]; exact h.2.2⟩
  | holding bytes =>
    obtain ⟨hfront, t, rest, htransit, hframe, hrest⟩ := h
    exact ⟨by rw [hbuf]; exact hfront, t, rest, htransit, hframe, hinbox.trans hrest⟩
  | ended => trivial

theorem readFull_ok {off n : ℕ} {bytes : Bytes} (h : w.readFull c off n = some (.ok bytes, w')) :
    n ≤ w.inbox.length ∧ w' = w.take off n ∧ bytes = w'.client.rBuf.take (off + n) := by
  unfold World.readFull at h
  split at h
  · split at h
    · next hn =>
      cases h
      exact ⟨hn, rfl, rfl⟩
    · cases h
  · cases h
  · cases h

theorem rBuf_take {off n : ℕ} (hoff : off ≤ w.client.rBuf.length) (hn : n ≤ w.inbox.length) :
    (w.take off n).client.rBuf.take (off + n) = w.client.rBuf.take off ++ w.inbox.take n := by
  have hlen : (w.client.rBuf.take off ++ w.inbox.take n).length = off + n := by
    rw [length_append, length_take, length_take]
    omega
  exact List.take_left' hlen

theorem flow_head {head : Bytes} (h : w.inbox = wire transit) (hread : w.readFull c 0 4 = some (.ok head, w')) :
    Flow w' transit (.headed head) := by
  obtain ⟨hn, rfl, rfl⟩ := readFull_ok hread
  have hfront := rBuf_take (Nat.zero_le _) hn
  rw [take_zero, nil_append] at hfront
  refine ⟨?_, rfl, ?_⟩
  · rw [hfront, length_take]
    omega
  · rw [hfront, ← h]
    exact take_append_drop 4 w.inbox

theorem flow_body {head bytes : Bytes} (hwhole : ∀ t ∈ transit, ∃ bytes, frame t.2 = some bytes)
    (h : Flow w transit (.headed head)) (hread : w.readFull c 4 (beNat head - 4) = some (.ok bytes, w')) :
    Flow w' transit (.holding bytes) := by
  obtain ⟨hhead, hbuf, hwire⟩ := h
  cases transit with
  | nil =>
    have hlen := congrArg length hwire
    rw [length_append, hhead, wire, flatMap_nil, length_nil] at hlen
    omega
  | cons t rest =>
    obtain ⟨bytes', hbytes'⟩ := hwhole t mem_cons_self
    obtain ⟨head', body, rfl, hhead', hword, -⟩ := frame_spec hbytes'
    rw [wire_cons hbytes', append_assoc] at hwire
    obtain ⟨rfl, hinbox⟩ := append_inj hwire (by rw [hhead, hhead'])
    obtain ⟨hn, rfl, rfl⟩ := readFull_ok hread
    rw [hword, Nat.add_sub_cancel_left] at hn ⊢
    have hlen : 4 ≤ w.client.rBuf.length := by
      rw [← hbuf, length_take] at hhead
      omega
    have hfront := rBuf_take hlen hn
    rw [hbuf, hinbox, take_left] at hfront
    rw [hfront]
    refine ⟨?_, t, rest, rfl, hbytes', ?_⟩
    · rw [length_append, hhead, hfront]
    · change w.inbox.drop body.length = wire rest
      rw [hinbox, drop_left]

end Flow

section Invariant

/-- The thread and the message of an event in which a call receives its answer. -/
def receipt : ClientEvent → Option (ℕ × Held)
  | .act i _ (.receive _) (some resp) => some (i, resp)
  | _ => none

/-- The server has produced the message for the request of the thread. -/
def Answered (past : List ClientEvent) (i : ℕ) (resp : Held) : Prop :=
  ∃ m, .env (.answer i m) ∈ past ∧ resp = held m

/-- A thread is handed only what the server has produced for it. -/
structure Answers (slot : ℕ → Option (ℕ × UInt16)) (answer : ℕ → Option Held) (c : Client)
    (past : List ClientEvent) : Prop where
  got : ∀ {i ch mid resp}, slot i = some (ch, mid) → (c.chans ch).got = some resp → Answered past i resp
  kept : ∀ {i resp}, answer i = some resp → Answered past i resp
  received : ∀ {ev i resp}, ev ∈ past → receipt ev = some (i, resp) → Answered past i resp

structure Inv (phases : ℕ → Option (Op × Phase)) (w : World) (past : List ClientEvent) : Prop where
  registered : Registered (part slot phases) w.client past
  reader : ∀ {i st}, part reads phases i = some st → i = 0
  untouched : ∀ {i ch mid}, part unsent phases i = some (ch, mid) → (w.client.chans ch).got = none
  awaited : w.client.closed = false → ∃ transit, Awaited (part waits phases) w past transit ∧
    ∀ {i st}, part reads phases i = some st → Flow w transit st
  answers : Answers (part slot phases) (part answer phases) w.client past

variable {resp : Held} {client : Client} {st : Reading} {msg : Message} {e : ServerStep}

theorem Answered.mono {past : List ClientEvent} {i : ℕ} (h : Answered past i resp)
    (ev : ClientEvent) : Answered (ev :: past) i resp := by
  obtain ⟨m, hm, hresp⟩ := h
  exact ⟨m, mem_cons_of_mem _ hm, hresp⟩

/-- A step in which a thread is handed nothing new, or something that the server has produced
for it. -/
theorem Answers.congr {slot slot' : ℕ → Option (ℕ × UInt16)} {answer answer' : ℕ → Option Held} {c c' : Client}
    {past : List ClientEvent} {ev : ClientEvent} (h : Answers slot answer c past)
    (hslot : ∀ {i ch mid}, slot' i = some (ch, mid) → slot i = some (ch, mid))
    (hgot : ∀ ch, (c'.chans ch).got = (c.chans ch).got)
    (hanswer : ∀ {i resp}, answer' i = some resp → answer i = some resp ∨ Answered past i resp)
    (hrec : ∀ {i resp}, receipt ev = some (i, resp) → Answered past i resp) :
    Answers slot' answer' c' (ev :: past) := by
  refine ⟨?_, ?_, ?_⟩
  · intro i ch mid resp hi hresp
    rw [hgot] at hresp
    exact (h.got (hslot hi) hresp).mono ev
  · intro i resp hi
    rcases hanswer hi with hi | hi
    · exact (h.kept hi).mono ev
    · exact hi.mono ev
  · intro ev' i resp hmem hresp
    rcases mem_cons.mp hmem with rfl | hmem
    · exact (hrec hresp).mono _
    · exact (h.received hmem hresp).mono ev

variable {phases phases' : ℕ → Option (Op × Phase)} {ev : ClientEvent}

theorem Inv.congr (h : Inv phases w past) (hslot : part slot phases' = part slot phases)
    (hunsent : part unsent phases' = part unsent phases) (hwaits : part waits phases' = part waits phases)
    (hanswer : part answer phases' = part answer phases) (hreads : part reads phases' = part reads phases)
    (hcalls : w'.client.calls = w.client.calls) (hmade : w'.client.made = w.client.made)
    (hclosing : ∀ mid ch, (mid, ch) ∈ w.client.calls → (w'.client.chans ch).closed = w'.client.closed)
    (hopen : w'.client.closed = false → w.client.closed = false)
    (hgot : ∀ ch, (w'.client.chans ch).got = (w.client.chans ch).got) (hbuf : w'.client.rBuf = w.client.rBuf)
    (hinbox : w'.inbox = w.inbox) (hun : w'.unanswered = w.unanswered)
    (hev : underway (ev :: past) = underway past) (hrec : receipt ev = none) : Inv phases' w' (ev :: past) := by
  refine ⟨?_, ?_, ?_, ?_, ?_⟩
  · rw [hslot]
    exact h.registered.congr hcalls hmade hclosing hev
  · rw [hreads]
    exact h.reader
  · intro i ch mid hi
    rw [hunsent] at hi
    rw [hgot]
    exact h.untouched hi
  · intro hclosed
    obtain ⟨transit, hawaited, hflow⟩ := h.awaited (hopen hclosed)
    refine ⟨transit, ?_, ?_⟩
    · rw [hwaits]
      exact hawaited.congr hun (fun _ hi => ⟨hi, hgot _⟩) (fun _ => mem_cons_of_mem _)
    · intro i st hi
      rw [hreads] at hi
      exact (hflow hi).congr hbuf hinbox
  · rw [hslot, hanswer]
    apply h.answers.congr id hgot Or.inl
    intro i resp hresp
    rw [hrec] at hresp
    cases hresp

/-- Two states with the same calls. -/
structure SameCalls (w w' : World) : Prop where
  calls : w'.client.calls = w.client.calls
  made : w'.client.made = w.client.made
  chans : w'.client.chans = w.client.chans
  closed : w'.client.closed = w.client.closed
  unanswered : w'.unanswered = w.unanswered

/-- Two states with the same calls, the same receive buffer and the same connection. -/
structure Same (w w' : World) : Prop extends SameCalls w w' where
  rBuf : w'.client.rBuf = w.client.rBuf
  inbox : w'.inbox = w.inbox

theorem SameCalls.refl (w : World) : SameCalls w w := ⟨rfl, rfl, rfl, rfl, rfl⟩

theorem Same.refl (w : World) : Same w w := ⟨SameCalls.refl w, rfl, rfl⟩

/-- The requests that change the tables of ids, the errors and the offsets only. -/
def Neutral : Request → Prop
  | .copyData _ | .nextId _ | .freeId _ _ | .checkPidError _ | .setPidError _ _ | .offset _ | .setOffset _ _
  | .stall => True
  | _ => False

variable {c : Choice} {op : Op} {ph : Phase} {q : Request} {r : Response q}

theorem same_of_neutral (hq : Neutral q) (hact : act maxsz c i q w = some (r, w')) : Same w w' := by
  cases q with
  | nextId t =>
    cases t with
    | file =>
      obtain ⟨fids, rfl⟩ := act_nextFid hact
      exact ⟨⟨rfl, rfl, rfl, rfl, rfl⟩, rfl, rfl⟩
    | pack =>
      obtain ⟨e, -, rfl⟩ | ⟨pid, -, rfl⟩ := act_nextPid hact
      · exact Same.refl _
      · exact ⟨⟨rfl, rfl, rfl, rfl, rfl⟩, rfl, rfl⟩
  | freeId t id => cases t <;> cases hact <;> exact ⟨⟨rfl, rfl, rfl, rfl, rfl⟩, rfl, rfl⟩
  | setPidError pid err =>
    cases hact
    dsimp only [Client.setPidError]
    split <;> exact ⟨⟨rfl, rfl, rfl, rfl, rfl⟩, rfl, rfl⟩
  | copyData s => cases hact; exact Same.refl w
  | checkPidError pid => cases hact; exact Same.refl w
  | offset f => cases hact; exact Same.refl w
  | setOffset f offset => cases hact; exact ⟨⟨rfl, rfl, rfl, rfl, rfl⟩, rfl, rfl⟩
  | stall => cases hact
  | _ => cases hq

theorem Inv.same (h : Inv phases w past) (hsame : Same w w') (hslot : part slot phases' = part slot phases)
    (hunsent : part unsent phases' = part unsent phases) (hwaits : part waits phases' = part waits phases)
    (hanswer : part answer phases' = part answer phases) (hreads : part reads phases' = part reads phases)
    (hev : underway (ev :: past) = underway past) (hrec : receipt ev = none) : Inv phases' w' (ev :: past) := by
  apply h.congr hslot hunsent hwaits hanswer hreads hsame.calls hsame.made _ _ _ hsame.rBuf hsame.inbox
    hsame.unanswered hev hrec
  · intro mid ch hmem
    rw [hsame.chans, hsame.closed]
    exact h.registered.closing hmem
  · rw [hsame.closed]
    exact id
  · intro ch
    rw [hsame.chans]

theorem Inv.step_same {ph' : Phase} (h : Inv phases w past) (hi : phases i = some (op, ph)) (hsame : Same w w')
    (hslot : slot ph' = slot ph) (hunsent : unsent ph' = unsent ph) (hwaits : waits ph' = waits ph)
    (hanswer : answer ph' = answer ph) (hreads : reads ph' = reads ph) (hev : underway (ev :: past) = underway past)
    (hrec : receipt ev = none) : Inv (update phases i (some (op, ph'))) w' (ev :: past) :=
  h.same hsame (part_update_same hi hslot) (part_update_same hi hunsent) (part_update_same hi hwaits)
    (part_update_same hi hanswer) (part_update_same hi hreads) hev hrec

theorem initial_of_mayStart {results : ℕ → Option Outcome} (hmay : mayStart results op = true) :
    initial op = .idle := by
  cases op with
  | readMessages rounds => cases hmay
  | _ => rfl

theorem Inv.start (h : Inv phases w past) (hi : phases i = none) (hop : initial op = .idle) :
    Inv (update phases i (some (op, initial op))) w (.start i op :: past) := by
  rw [hop]
  exact h.same (Same.refl w) (part_start hi rfl) (part_start hi rfl) (part_start hi rfl) (part_start hi rfl)
    (part_start hi rfl) rfl rfl

theorem Inv.neutral (h : Inv phases w past) (hi : phases i = some (op, ph)) (hq : Neutral q)
    (hallows : allows maxsz ph q) (hact : act maxsz c i q w = some (r, w')) :
    Inv (update phases i (some (op, next ph q r))) w' (.act i c q r :: past) := by
  have hsame := same_of_neutral hq hact
  cases q with
  | copyData s =>
    obtain ⟨resp, rfl, -⟩ := hallows
    exact h.step_same hi hsame rfl rfl rfl rfl rfl rfl rfl
  | nextId t => exact h.step_same hi hsame rfl rfl rfl rfl rfl rfl rfl
  | freeId t id => exact h.step_same hi hsame rfl rfl rfl rfl rfl rfl rfl
  | checkPidError pid => exact h.step_same hi hsame rfl rfl rfl rfl rfl rfl rfl
  | setPidError pid err => exact h.step_same hi hsame rfl rfl rfl rfl rfl rfl rfl
  | offset f => exact h.step_same hi hsame rfl rfl rfl rfl rfl rfl rfl
  | setOffset f offset => exact h.step_same hi hsame rfl rfl rfl rfl rfl rfl rfl
  | stall => cases hact
  | _ => cases hq

theorem Inv.newCall {r : Except GoError (ℕ × UInt16)} (h : Inv phases w past)
    (hi : phases i = some (op, .idle)) (hact : act maxsz c i .newCall w = some (r, w')) :
    Inv (update phases i (some (op, next .idle .newCall r))) w' (.act i c .newCall r :: past) := by
  obtain ⟨client, hnew, rfl⟩ := act_newCall hact
  cases r with
  | error e =>
    obtain rfl := newCall_error hnew
    exact h.step_same hi (Same.refl w) rfl rfl rfl rfl rfl rfl rfl
  | ok x =>
    obtain ⟨ch, mid⟩ := x
    have hreg := h.registered.newCall (part_of_phase hi) hnew c
    obtain ⟨mid', -, -, hopen, hx, hclient⟩ := newCall_ok hnew
    cases hx
    have hchans : client.chans = update w.client.chans w.client.made Chan.new := by rw [hclient]
    have hnewChan : (client.chans w.client.made).got = none := by
      rw [hchans, update_self]
      rfl
    have hold {j ch' : ℕ} {mid' : UInt16} (hj : part slot phases j = some (ch', mid')) :
        (client.chans ch').got = (w.client.chans ch').got := h.registered.newCall_got hnew hj
    have hslot : part slot (update phases i (some (op, .calling w.client.made mid .made))) =
        update (part slot phases) i (some (w.client.made, mid)) := part_update _ _ _ _ _
    have hunsent : part unsent (update phases i (some (op, .calling w.client.made mid .made))) =
        update (part unsent phases) i (some (w.client.made, mid)) := part_update _ _ _ _ _
    have hwaits : part waits (update phases i (some (op, .calling w.client.made mid .made))) =
        part waits phases := part_update_same hi rfl
    have hanswer : part answer (update phases i (some (op, .calling w.client.made mid .made))) =
        part answer phases := part_update_same hi rfl
    have hreads : part reads (update phases i (some (op, .calling w.client.made mid .made))) =
        part reads phases := part_update_same hi rfl
    refine ⟨?_, ?_, ?_, ?_, ?_⟩
    · exact hslot ▸ hreg
    · intro j st hj
      exact h.reader (hreads ▸ hj)
    · intro j ch' mid' hj
      have hj := hunsent ▸ hj
      by_cases hji : j = i
      · subst hji
        rw [update_self] at hj
        cases hj
        exact hnewChan
      · rw [update_of_ne hji] at hj
        exact (hold (slot_of_unsent hj).1).trans (h.untouched hj)
    · intro _
      obtain ⟨transit, hawaited, hflow⟩ := h.awaited hopen
      refine ⟨transit, ?_, ?_⟩
      · refine hawaited.congr ?_ ?_ (fun _ => mem_cons_of_mem _)
        · rfl
        · intro j ch' mid' _ hj
          exact ⟨hwaits ▸ hj, hold (slot_of_waits hj)⟩
      · intro j st hj
        exact (hflow (hreads ▸ hj)).congr (by rw [hclient]) rfl
    · refine ⟨?_, ?_, ?_⟩
      · intro j ch' mid' resp hj hresp
        have hj := hslot ▸ hj
        by_cases hji : j = i
        · subst hji
          rw [update_self] at hj
          cases hj
          rw [hnewChan] at hresp
          cases hresp
        · rw [update_of_ne hji] at hj
          exact (h.answers.got hj ((hold hj).symm.trans hresp)).mono _
      · intro j resp hj
        exact (h.answers.kept (hanswer ▸ hj)).mono _
      · intro ev' j resp hmem hresp
        rcases mem_cons.mp hmem with rfl | hmem
        · cases hresp
        · exact (h.answers.received hmem hresp).mono _

theorem park_chan (client : Client) (ch ch' : ℕ) : ((client.park ch).chans ch').closed = (client.chans ch').closed ∧
      ((client.park ch).chans ch').got = (client.chans ch').got := by
  change (update client.chans ch _ ch').closed = _ ∧ (update client.chans ch _ ch').got = _
  by_cases hch : ch' = ch
  · subst hch
    rw [update_self]
    exact ⟨rfl, rfl⟩
  · rw [update_of_ne hch]
    exact ⟨rfl, rfl⟩

theorem Inv.park {ch : ℕ} {mid : UInt16} (h : Inv phases w past)
    (hi : phases i = some (op, .calling ch mid .written)) :
    Inv (update phases i (some (op, .calling ch mid .parked))) { w with client := w.client.park ch }
      (.act i c (.park ch) () :: past) := by
  have hchan := park_chan w.client ch
  refine h.congr (part_update_same hi rfl) (part_update_same hi rfl) (part_update_same hi rfl)
    (part_update_same hi rfl) (part_update_same hi rfl) rfl rfl ?_ id (fun ch' => (hchan ch').2) rfl rfl rfl rfl rfl
  intro mid' ch' hmem
  exact (hchan ch').1.trans (h.registered.closing hmem)

theorem close_cases (client : Client) : (client.close.2 = client) ∨
    (client.closed = false ∧ client.close = (.ok (), { client with
      chans := fun ch => if client.inCalls ch then { client.chans ch with closed := true } else client.chans ch
      closed := true })) := by
  rw [Client.close]
  split
  · exact Or.inl rfl
  · next hopen =>
    split
    · exact Or.inl rfl
    · rw [Bool.not_eq_true] at hopen
      exact Or.inr ⟨hopen, rfl⟩

theorem close_got (client : Client) (ch : ℕ) : (client.close.2.chans ch).got = (client.chans ch).got := by
  rcases close_cases client with hsame | ⟨-, hclose⟩
  · rw [hsame]
  · rw [hclose]
    dsimp only
    split <;> rfl

theorem close_rBuf (client : Client) : client.close.2.rBuf = client.rBuf := by
  rcases close_cases client with hsame | ⟨-, hclose⟩
  · rw [hsame]
  · rw [hclose]

theorem Inv.close {r : Except GoError Unit} (h : Inv phases w past) (hi : phases i = some (op, ph)) :
    Inv (update phases i (some (op, ph))) { w with client := w.client.close.2 }
      (.act i c .close r :: past) := by
  rcases close_cases w.client with hsame | ⟨hopen, hclose⟩
  · rw [hsame]
    exact h.step_same hi (Same.refl w) rfl rfl rfl rfl rfl rfl rfl
  · rw [hclose]
    refine h.congr (part_update_same hi rfl) (part_update_same hi rfl) (part_update_same hi rfl)
      (part_update_same hi rfl) (part_update_same hi rfl) rfl rfl ?_ nofun ?_ rfl rfl rfl rfl rfl
    · intro mid ch hmem
      have hin : w.client.inCalls ch = true := any_eq_true.mpr ⟨_, hmem, beq_self_eq_true ch⟩
      dsimp only
      rw [hin]
      rfl
    · intro ch
      dsimp only
      split <;> rfl

theorem writeMessage_cases {m : Message} {r : Except GoError Unit}
    (h : w.writeMessage maxsz c i m = some (r, w')) : w' = w ∨ (m.type ≠ .TWritePack ∧ r = .ok () ∧
      ∃ opened, c = .received opened ∧ w' = { w with unanswered := ⟨i, m, opened⟩ :: w.unanswered }) := by
  unfold World.writeMessage at h
  split at h
  · cases h
    exact Or.inl rfl
  · cases h
    exact Or.inl rfl
  · cases h
    exact Or.inl rfl
  · cases h
    exact Or.inl rfl
  · split at h
    · cases h
      exact Or.inl rfl
    · next hm =>
      cases h
      exact Or.inr ⟨hm, rfl, _, rfl, rfl⟩
  · cases h

theorem writeMessage_client {m : Message} {r : Except GoError Unit}
    (h : w.writeMessage maxsz c i m = some (r, w')) : w'.client = w.client ∧ w'.inbox = w.inbox := by
  rcases writeMessage_cases h with rfl | ⟨-, -, opened, -, rfl⟩
  · exact ⟨rfl, rfl⟩
  · exact ⟨rfl, rfl⟩

theorem Inv.write {m : Message} {ch : ℕ} {r : Except GoError Unit} (h : Inv phases w past)
    (hi : phases i = some (op, .calling ch (getMessageId m) .made)) (hact : w.writeMessage maxsz c i m = some (r, w')) :
    Inv (update phases i (some (op, next (.calling ch (getMessageId m) .made) (.writeMessage m) r))) w'
      (.act i c (.writeMessage m) r :: past) := by
  obtain ⟨ph', hph', hslot, hunsent, hwaits, hanswer, hreads⟩ : ∃ ph',
      next (.calling ch (getMessageId m) .made) (.writeMessage m) r = ph' ∧
      slot ph' = some (ch, getMessageId m) ∧ unsent ph' = none ∧
      (r = .ok () → waits ph' = some (ch, getMessageId m)) ∧ answer ph' = none ∧ reads ph' = none := by
    cases r with
    | ok u => exact ⟨_, rfl, rfl, rfl, fun _ => rfl, rfl, rfl⟩
    | error e => exact ⟨_, rfl, rfl, rfl, nofun, rfl, rfl⟩
  have hclient := writeMessage_client hact
  rw [hph']
  refine ⟨?_, ?_, ?_, ?_, ?_⟩
  · rw [part_update_same hi hslot, hclient.1]
    exact h.registered.congr rfl rfl (fun _ _ => h.registered.closing) rfl
  · rw [part_update_same hi hreads]
    exact h.reader
  · intro j ch' mid' hj
    rw [part_update, hunsent] at hj
    rw [hclient.1]
    exact h.untouched (of_update_none hj)
  · intro hopen
    rw [hclient.1] at hopen
    obtain ⟨transit, hawaited, hflow⟩ := h.awaited hopen
    have hnot : i ∉ concerned w transit := by
      intro hmem
      obtain ⟨mid, ch', hch', -⟩ := hawaited.mem_concerned hmem
      rw [part_of_phase hi] at hch'
      cases hch'
    refine ⟨transit, ?_, ?_⟩
    · rw [part_update]
      have hupdate := hawaited.update hnot (x := waits ph')
        (fun ev hev => mem_cons_of_mem (.act i c (.writeMessage m) r) hev)
      rcases writeMessage_cases hact with rfl | ⟨-, hr, opened, -, rfl⟩
      · exact hupdate
      · apply hupdate.ask hnot
        refine ⟨ch, ?_, h.untouched (part_of_phase hi)⟩
        rw [update_self]
        exact hwaits hr
    · rw [part_update_same hi hreads]
      intro j st hj
      exact (hflow hj).congr (by rw [hclient.1]) hclient.2
  · rw [part_update_same hi hslot, part_update_same hi hanswer, hclient.1]
    exact h.answers.congr id (fun _ => rfl) Or.inl nofun

theorem got_of_receive {ch : ℕ} (h : client.receive ch = some (some resp)) : (client.chans ch).got = some resp := by
  rw [Client.receive] at h
  split at h
  · next hgot =>
    cases h
    exact hgot
  · split at h <;> cases h

theorem Inv.receive {ch : ℕ} {mid : UInt16} {r : Option Held} (h : Inv phases w past)
    (hi : phases i = some (op, .calling ch mid .parked)) (hrec : w.client.receive ch = some r) :
    Inv (update phases i (some (op, .calling ch mid (.over r)))) w (.act i c (.receive ch) r :: past) := by
  have hslot : part slot phases i = some (ch, mid) := part_of_phase hi
  have hr : (∃ resp, r = some resp ∧ (w.client.chans ch).got = some resp) ∨ (r = none ∧ w.client.closed = true) := by
    rw [Client.receive] at hrec
    split at hrec
    · next resp hgot =>
      cases hrec
      exact Or.inl ⟨resp, rfl, hgot⟩
    · split at hrec
      · next hclosed =>
        cases hrec
        exact Or.inr ⟨rfl, by rw [← h.registered.closing (h.registered.entry hslot).1]; exact hclosed⟩
      · cases hrec
  have hanswered (resp : Held) (hresp : r = some resp) : Answered past i resp := by
    rcases hr with ⟨resp', hresp', hgot⟩ | ⟨hnone, -⟩
    · rw [hresp] at hresp'
      cases hresp'
      exact h.answers.got hslot hgot
    · rw [hnone] at hresp
      cases hresp
  refine ⟨?_, ?_, ?_, ?_, ?_⟩
  · rw [part_update_same hi (by rfl)]
    exact h.registered.congr rfl rfl (fun _ _ => h.registered.closing) rfl
  · rw [part_update_same hi (by rfl)]
    exact h.reader
  · rw [part_update_same hi (by rfl)]
    exact h.untouched
  · intro hopen
    obtain ⟨transit, hawaited, hflow⟩ := h.awaited hopen
    have hnot : i ∉ concerned w transit := by
      intro hmem
      obtain ⟨mid', ch', hch', hgot⟩ := hawaited.mem_concerned hmem
      rw [part_of_phase hi] at hch'
      cases hch'
      rcases hr with ⟨resp, -, hgot'⟩ | ⟨-, hclosed⟩
      · rw [hgot] at hgot'
        cases hgot'
      · rw [hopen] at hclosed
        cases hclosed
    refine ⟨transit, ?_, ?_⟩
    · rw [part_update]
      exact hawaited.update hnot (fun _ => mem_cons_of_mem _)
    · rw [part_update_same hi (by rfl)]
      exact hflow
  · rw [part_update_same hi (by rfl)]
    apply h.answers.congr id (fun _ => rfl)
    · intro j resp hj
      rw [part_update] at hj
      by_cases hji : j = i
      · subst hji
        rw [update_self] at hj
        exact Or.inr (hanswered resp hj)
      · rw [update_of_ne hji] at hj
        exact Or.inl hj
    · intro j resp hj
      cases r with
      | none => cases hj
      | some resp' =>
        cases hj
        exact hanswered _ rfl

theorem Inv.deleteCall {ch : ℕ} {mid : UInt16} {resp : Option Held} (h : Inv phases w past)
    (hi : phases i = some (op, .calling ch mid (.over resp))) :
    Inv (update phases i (some (op, .returned resp))) { w with client := w.client.deleteCall mid }
      (.act i c (.deleteCall mid) () :: past) := by
  refine ⟨?_, ?_, ?_, ?_, ?_⟩
  · rw [part_update]
    exact h.registered.deleteCall (part_of_phase hi) c
  · rw [part_update_same hi (by rfl)]
    exact h.reader
  · rw [part_update_same hi (by rfl)]
    exact h.untouched
  · intro hopen
    obtain ⟨transit, hawaited, hflow⟩ := h.awaited hopen
    refine ⟨transit, ?_, ?_⟩
    · rw [part_update_same hi (by rfl)]
      exact hawaited.congr rfl (fun _ hj => ⟨hj, rfl⟩) (fun _ => mem_cons_of_mem _)
    · rw [part_update_same hi (by rfl)]
      exact fun hj => (hflow hj).congr rfl rfl
  · refine h.answers.congr ?_ (fun _ => rfl) ?_ nofun
    · intro j ch' mid' hj
      rw [part_update] at hj
      exact of_update_none hj
    · rw [part_update_same hi (by rfl)]
      exact Or.inl

theorem sameCalls_readFull {off n : ℕ} {r : Except GoError Bytes} (h : w.readFull c off n = some (r, w')) :
    SameCalls w w' := by
  obtain ⟨k, rfl⟩ := readFull_take h
  exact ⟨rfl, rfl, rfl, rfl, rfl⟩

theorem Inv.reads_update {st' st'' : Reading} (h : Inv phases w past) (hi : phases i = some (op, .reading st)) {j : ℕ}
    (hj : part reads (update phases i (some (op, .reading st'))) j = some st'') : j = 0 ∧ st'' = st' := by
  have hzero : i = 0 := h.reader (part_of_phase hi)
  rw [part_update] at hj
  by_cases hji : j = i
  · subst hji
    rw [update_self] at hj
    cases hj
    exact ⟨hzero, rfl⟩
  · rw [update_of_ne hji] at hj
    exact absurd ((h.reader hj).trans hzero.symm) hji

theorem Inv.read {st' : Reading} (h : Inv phases w past) (hi : phases i = some (op, .reading st))
    (hsame : SameCalls w w')
    (hflow : ∀ transit, (∀ t ∈ transit, ∃ bytes, frame t.2 = some bytes) → Flow w transit st →
      ∃ transit', transit'.Sublist transit ∧ Flow w' transit' st')
    (hev : underway (ev :: past) = underway past) (hrec : receipt ev = none) :
    Inv (update phases i (some (op, .reading st'))) w' (ev :: past) := by
  refine ⟨?_, ?_, ?_, ?_, ?_⟩
  · rw [part_update_same hi (by rfl)]
    apply h.registered.congr hsame.calls hsame.made _ hev
    intro mid ch hmem
    rw [hsame.chans, hsame.closed]
    exact h.registered.closing hmem
  · intro j st'' hj
    exact (h.reads_update hi hj).1
  · rw [part_update_same hi (by rfl), hsame.chans]
    exact h.untouched
  · intro hopen
    rw [hsame.closed] at hopen
    obtain ⟨transit, hawaited, hflow'⟩ := h.awaited hopen
    obtain ⟨transit', hsub, hst'⟩ := hflow transit (fun _ => hawaited.whole) (hflow' (part_of_phase hi))
    refine ⟨transit', ?_, ?_⟩
    · rw [part_update_same hi (by rfl)]
      refine (hawaited.sublist hsub).congr hsame.unanswered ?_ (fun _ => mem_cons_of_mem _)
      intro j ch mid _ hj
      exact ⟨hj, by rw [hsame.chans]⟩
    · intro j st'' hj
      rw [(h.reads_update hi hj).2]
      exact hst'
  · rw [part_update_same hi (by rfl), part_update_same hi (by rfl)]
    apply h.answers.congr id (fun ch => by rw [hsame.chans]) Or.inl
    intro j resp hj
    rw [hrec] at hj
    cases hj

theorem flow_holding {transit : Transit} (h : Flow w transit (.holding bytes))
    (hmsg : unpackMessage bytes = .ok msg) : ∃ tag rest, transit = (tag, msg) :: rest ∧ w.inbox = wire rest ∧
      frame msg = some bytes ∧ w.client.rBuf.take bytes.length = bytes := by
  obtain ⟨hfront, ⟨tag, m⟩, rest, htransit, hframe, hrest⟩ := h
  obtain ⟨head, body, -, -, -, hunpack⟩ := frame_spec hframe
  rw [hmsg, Except.ok.injEq] at hunpack
  subst hunpack
  exact ⟨tag, rest, htransit, hrest, hframe, hfront⟩

theorem Inv.recipient {ch : ℕ} (h : Inv phases w past)
    (hi : phases i = some (op, .reading (.holding bytes))) (hmsg : unpackMessage bytes = .ok msg)
    (hlookup : w.client.calls.lookup (getMessageId msg) = some ch) (hchan : (w.client.chans ch).closed = false) :
    ∃ k rest, Awaited (part waits phases) w past ((some k, msg) :: rest) ∧ w.inbox = wire rest ∧
      part waits phases k = some (ch, getMessageId msg) ∧ frame msg = some bytes ∧
      w.client.rBuf.take bytes.length = bytes := by
  have hmem := mem_of_lookup hlookup
  obtain ⟨transit, hawaited, hflow⟩ := h.awaited ((h.registered.closing hmem).symm.trans hchan)
  obtain ⟨tag, rest, rfl, hrest, hframe, hfront⟩ := flow_holding (hflow (part_of_phase hi)) hmsg
  cases tag with
  | none =>
    obtain ⟨j, hj⟩ := h.registered.owner hmem
    exact absurd (hawaited.other mem_cons_self) (h.registered.entry hj).2
  | some k =>
    obtain ⟨⟨ch', hwaits, -⟩, -⟩ := hawaited.sent mem_cons_self
    have hmem' := (h.registered.entry (slot_of_waits hwaits)).1
    rw [eq_of_mem_of_mem h.registered.keys hmem' hmem] at hwaits
    exact ⟨k, rest, hawaited, hrest, hwaits, hframe, hfront⟩

theorem Inv.readHead {r : Except GoError Bytes} (h : Inv phases w past) (hi : phases i = some (op, .reading st))
    (hst : st = .between ∨ ∃ bytes, st = .holding bytes) (hact : w.readFull c 0 4 = some (r, w')) :
    Inv (update phases i (some (op, next (.reading st) .readHead r))) w' (.act i c .readHead r :: past) := by
  cases r with
  | error e =>
    exact h.read hi (sameCalls_readFull hact) (fun transit _ _ => ⟨transit, List.Sublist.refl _, trivial⟩) rfl rfl
  | ok head =>
    refine h.read hi (sameCalls_readFull hact) ?_ rfl rfl
    intro transit _ hflow
    rcases hst with rfl | ⟨bytes, rfl⟩
    · exact ⟨transit, List.Sublist.refl _, flow_head hflow hact⟩
    · obtain ⟨-, t, rest, rfl, -, hrest⟩ := hflow
      exact ⟨rest, sublist_cons_self t rest, flow_head hrest hact⟩

theorem Inv.readBody {head : Bytes} {r : Except GoError Bytes} (h : Inv phases w past)
    (hi : phases i = some (op, .reading (.headed head))) (hact : w.readFull c 4 (beNat head - 4) = some (r, w')) :
    Inv (update phases i (some (op, next (.reading (.headed head)) (.readBody (beNat head)) r))) w'
      (.act i c (.readBody (beNat head)) r :: past) := by
  cases r with
  | error e =>
    exact h.read hi (sameCalls_readFull hact) (fun transit _ _ => ⟨transit, List.Sublist.refl _, trivial⟩) rfl rfl
  | ok bytes =>
    refine h.read hi (sameCalls_readFull hact) ?_ rfl rfl
    intro transit hwhole hflow
    exact ⟨transit, List.Sublist.refl _, flow_body hwhole hflow hact⟩

theorem deliver_cases {client' : Client} {mid : UInt16} {m : Held} {r : Except GoError Unit}
    (h : client.deliver mid m = some (r, client')) : client' = client ∨ ∃ ch, client.calls.lookup mid = some ch ∧
      (client.chans ch).closed = false ∧
      client' = { client with chans := update client.chans ch ⟨false, false, some m⟩ } := by
  rw [Client.deliver] at h
  split at h
  · cases h
    exact Or.inl rfl
  · next ch hlookup =>
    split at h
    · cases h
      exact Or.inl rfl
    · next hopen =>
      split at h
      · cases h
        rw [Bool.not_eq_true] at hopen
        exact Or.inr ⟨ch, hlookup, hopen, rfl⟩
      · cases h

theorem Inv.deliver {r : Except GoError Unit}
    (h : Inv phases w past) (hi : phases i = some (op, .reading (.holding bytes)))
    (hmsg : unpackMessage bytes = .ok msg)
    (hdeliver : w.client.deliver (getMessageId msg) (held msg) = some (r, client)) :
    Inv (update phases i (some (op, .reading .between))) { w with client := client }
      (.act i c (.deliver (getMessageId msg) (held msg)) r :: past) := by
  rcases deliver_cases hdeliver with rfl | ⟨ch, hlookup, hchan, rfl⟩
  · refine h.read hi (SameCalls.refl w) ?_ rfl rfl
    intro transit _ hflow
    obtain ⟨tag, rest, rfl, hrest, -⟩ := flow_holding hflow hmsg
    exact ⟨rest, sublist_cons_self _ rest, hrest⟩
  · -- the message is the answer for the call of a thread `k`
    obtain ⟨k, rest, hawaited, hrest, hwaits, -⟩ := h.recipient hi hmsg hlookup hchan
    have hslot := slot_of_waits hwaits
    have hanswer := (hawaited.sent mem_cons_self).2
    have hopen : w.client.closed = false := (h.registered.closing (h.registered.entry hslot).1).symm.trans hchan
    have hk : k ∉ concerned w rest := (nodup_cons.mp (perm_middle.nodup hawaited.once)).1
    have hother {j ch' : ℕ} {mid : UInt16} (hj : part slot phases j = some (ch', mid)) (hne : j ≠ k) :
        update w.client.chans ch ⟨false, false, some (held msg)⟩ ch' = w.client.chans ch' := by
      apply update_of_ne
      rintro rfl
      exact hne (h.registered.apart hj hslot)
    refine ⟨?_, ?_, ?_, ?_, ?_⟩
    · rw [part_update_same hi (by rfl)]
      refine h.registered.congr rfl rfl ?_ rfl
      intro mid ch' hmem''
      change (update w.client.chans ch _ ch').closed = w.client.closed
      by_cases hch : ch' = ch
      · rw [hch, update_self, hopen]
      · rw [update_of_ne hch]
        exact h.registered.closing hmem''
    · intro j st hj
      exact (h.reads_update hi hj).1
    · intro j ch' mid hj
      rw [part_update_same hi (by rfl)] at hj
      refine (congrArg Chan.got (hother (slot_of_unsent hj).1 ?_)).trans (h.untouched hj)
      rintro rfl
      rw [(slot_of_unsent hj).2] at hwaits
      cases hwaits
    · intro _
      refine ⟨rest, ?_, ?_⟩
      · rw [part_update_same hi (by rfl)]
        refine (hawaited.sublist (sublist_cons_self _ _)).congr rfl ?_ (fun _ => mem_cons_of_mem _)
        intro j ch' mid hj hwaits'
        refine ⟨hwaits', congrArg Chan.got (hother (slot_of_waits hwaits') ?_)⟩
        rintro rfl
        exact hk hj
      · intro j st hj
        rw [(h.reads_update hi hj).2]
        exact hrest
    · rw [part_update_same hi (by rfl), part_update_same hi (by rfl)]
      refine ⟨?_, ?_, ?_⟩
      · intro j ch' mid resp hj hresp
        by_cases hjk : j = k
        · subst hjk
          rw [hslot] at hj
          cases hj
          change (update w.client.chans ch _ ch).got = some resp at hresp
          rw [update_self] at hresp
          cases hresp
          exact ⟨msg, mem_cons_of_mem _ hanswer, rfl⟩
        · have hold := congrArg Chan.got (hother hj hjk)
          exact (h.answers.got hj (hold.symm.trans hresp)).mono _
      · intro j resp hj
        exact (h.answers.kept hj).mono _
      · intro ev' j resp hev hresp
        rcases mem_cons.mp hev with rfl | hev
        · cases hresp
        · exact (h.answers.received hev hresp).mono _

theorem Inv.act (h : Inv phases w past) (hi : phases i = some (op, ph)) (hallows : allows maxsz ph q)
    (hact : act maxsz c i q w = some (r, w')) :
    Inv (update phases i (some (op, next ph q r))) w' (.act i c q r :: past) := by
  cases q with
  | newCall =>
    obtain rfl := hallows
    exact h.newCall hi hact
  | deleteCall mid =>
    obtain ⟨ch, resp, rfl⟩ := hallows
    cases hact
    exact h.deleteCall hi
  | writeMessage m =>
    rcases hallows with ⟨rfl, hm⟩ | ⟨ch, rfl, -⟩
    · rcases writeMessage_cases hact with rfl | ⟨hm', -⟩
      · exact h.step_same hi (Same.refl _) rfl rfl rfl rfl rfl rfl rfl
      · exact absurd hm hm'
    · exact h.write hi hact
  | park ch =>
    obtain ⟨mid, rfl⟩ := hallows
    cases hact
    exact h.park hi
  | receive ch =>
    obtain ⟨mid, rfl⟩ := hallows
    obtain ⟨hrec, rfl⟩ := act_receive hact
    exact h.receive hi hrec
  | close =>
    cases hact
    exact h.close hi
  | readHead =>
    rcases hallows with rfl | ⟨bytes, rfl⟩
    · exact h.readHead hi (Or.inl rfl) hact
    · exact h.readHead hi (Or.inr ⟨bytes, rfl⟩) hact
  | readBody sz =>
    obtain ⟨head, rfl, rfl, -⟩ := hallows
    exact h.readBody hi hact
  | deliver mid m =>
    obtain ⟨bytes, msg, rfl, hmsg, rfl, rfl⟩ := hallows
    obtain ⟨client, hdeliver, rfl⟩ := act_deliver hact
    exact h.deliver hi hmsg hdeliver
  | _ => exact h.neutral hi trivial hallows hact

theorem Flow.append {transit : Transit} {t : Option ℕ × Message}
    (h : Flow w transit st) (ht : frame t.2 = some bytes) (hbuf : w'.client.rBuf = w.client.rBuf)
    (hinbox : w'.inbox = w.inbox ++ bytes) : Flow w' (transit ++ [t]) st := by
  have hwire : wire [t] = bytes := by
    rw [wire_cons ht]
    exact append_nil bytes
  cases st with
  | between => exact hinbox.trans (by rw [wire_append, hwire, ← h])
  | headed head =>
    refine ⟨h.1, by rw [hbuf]; exact h.2.1, ?_⟩
    rw [hinbox, wire_append, hwire, ← append_assoc, h.2.2]
  | holding front =>
    obtain ⟨hfront, t', rest, rfl, hframe, hrest⟩ := h
    refine ⟨by rw [hbuf]; exact hfront, t', rest ++ [t], rfl, hframe, ?_⟩
    rw [hinbox, hrest, wire_append, hwire]
  | ended => trivial

theorem Inv.env {rule : Message → Bool → Message → Bool} (h : Inv phases w past)
    (henv : serve rule e w = some w') : Inv phases w' (.env e :: past) := by
  cases e with
  | answer k m =>
    simp only [serve, Option.bind_eq_bind, Option.bind_eq_some_iff] at henv
    obtain ⟨u, hu, bytes, hbytes, henv⟩ := henv
    split at henv
    · next hrule =>
      cases henv
      refine ⟨h.registered.congr rfl rfl (fun _ _ => h.registered.closing) rfl, h.reader, h.untouched, ?_,
        h.answers.congr id (fun _ => rfl) Or.inl nofun⟩
      intro hopen
      obtain ⟨transit, hawaited, hflow⟩ := h.awaited hopen
      exact ⟨_, hawaited.answer hu hbytes hrule.1, fun hj => (hflow hj).append hbytes rfl rfl⟩
    · cases henv
  | notify m =>
    simp only [serve, Option.bind_eq_bind, Option.bind_eq_some_iff] at henv
    obtain ⟨bytes, hbytes, henv⟩ := henv
    split at henv
    · next hid =>
      cases henv
      refine ⟨h.registered.congr rfl rfl (fun _ _ => h.registered.closing) rfl, h.reader, h.untouched, ?_,
        h.answers.congr id (fun _ => rfl) Or.inl nofun⟩
      intro hopen
      obtain ⟨transit, hawaited, hflow⟩ := h.awaited hopen
      exact ⟨_, hawaited.notify hbytes hid, fun hj => (hflow hj).append hbytes rfl rfl⟩
    · cases henv

theorem serve_client {rule : Message → Bool → Message → Bool} (h : serve rule e w = some w') :
    ∃ inbox unanswered, w' = { w with inbox := inbox, unanswered := unanswered } := by
  cases e with
  | answer k m =>
    simp only [serve, Option.bind_eq_bind, Option.bind_eq_some_iff] at h
    obtain ⟨u, -, bytes, -, h⟩ := h
    split at h <;> cases h
    exact ⟨_, _, rfl⟩
  | notify m =>
    simp only [serve, Option.bind_eq_bind, Option.bind_eq_some_iff] at h
    obtain ⟨bytes, -, h⟩ := h
    split at h <;> cases h
    exact ⟨_, _, rfl⟩

/-- The phases after `Attach`. -/
def attachedPhases (rounds : ℕ) (i : ℕ) : Option (Op × Phase) :=
  if i = 0 then some (.readMessages rounds, .reading .between) else none

theorem attached_views (maxsz : UInt32) (rounds : ℕ) : (protocol maxsz).Views final
    ⟨attachedPhases rounds, World.init maxsz, []⟩ (attached maxsz rounds) where
  fits i := by
    change (protocol maxsz).Fits final (if i = 0 then _ else _) (if i = 0 then _ else _)
    split
    · exact .used (method_keeps (.readMessages rounds))
    · exact .unused
  shared := rfl
  past := rfl

theorem part_attached {β : Type} {f : Phase → Option β} (hf : f (.reading .between) = none) (rounds i : ℕ) :
    part f (attachedPhases rounds) i = none := by
  rw [part, attachedPhases]
  split
  · exact hf
  · rfl

theorem Inv.init (maxsz : UInt32) (rounds : ℕ) : Inv (attachedPhases rounds) (World.init maxsz) [] := by
  have hslot {i : ℕ} {x : ℕ × UInt16} (hi : part slot (attachedPhases rounds) i = some x) : False := by
    rw [part_attached rfl] at hi
    cases hi
  refine ⟨⟨nodup_nil, rfl, (fun h => by cases h), fun hi => (hslot hi).elim, (fun h => by cases h),
      fun hi => (hslot hi).elim, (fun h => by cases h), (fun h => by cases h)⟩,
    ?_, ?_, ?_, ⟨fun hi => (hslot hi).elim, ?_, by simp⟩⟩
  · intro i st hi
    rw [part, attachedPhases] at hi
    split at hi
    · next hzero => exact hzero
    · cases hi
  · intro i ch mid hi
    rw [part_attached rfl] at hi
    cases hi
  · intro _
    refine ⟨[], ⟨nodup_nil, (fun h => by cases h), by simp, by simp, by simp⟩, ?_⟩
    intro i st hi
    rw [part, attachedPhases] at hi
    split at hi
    · cases hi
      rfl
    · cases hi
  · intro i resp hi
    rw [part_attached rfl] at hi
    cases hi

end Invariant

section Replies

variable {rule : Message → Bool → Message → Bool} {rounds : ℕ} {ls : List ClientLabel}
  {p : Pool Op Request Response Choice ServerStep Outcome World}

/-- What has to be shown of a property that is an invariant together with `Inv`, in runs whose
steps meet `ok`. -/
structure Extends (maxsz : UInt32) (rule : Message → Bool → Message → Bool)
    (ok : World → List ClientEvent → ClientEvent → Prop)
    (J : (ℕ → Option (Op × Phase)) → World → List ClientEvent → Prop) : Prop where
  start : ∀ {phases w past i op}, Inv phases w past → J phases w past → phases i = none → initial op = .idle →
    ok w past (.start i op) → J (update phases i (some (op, initial op))) w (.start i op :: past)
  act : ∀ {phases w past i c op ph q r w'}, Inv phases w past → J phases w past →
    phases i = some (op, ph) → allows maxsz ph q → act maxsz c i q w = some (r, w') → ok w past (.act i c q r) →
    J (update phases i (some (op, next ph q r))) w' (.act i c q r :: past)
  env : ∀ {phases w past e w'}, Inv phases w past → J phases w past → serve rule e w = some w' →
    ok w past (.env e) → J phases w' (.env e :: past)

theorem Extends.of_run {ok : World → List ClientEvent → ClientEvent → Prop}
    {J : (ℕ → Option (Op × Phase)) → World → List ClientEvent → Prop} (hJ : Extends maxsz rule ok J)
    (hinit : J (attachedPhases rounds) (World.init maxsz) [])
    (hok : Careful (system maxsz rule) ok ls (attached maxsz rounds))
    (hrun : run (system maxsz rule) ls (attached maxsz rounds) = some p) :
    ∃ phases, (protocol maxsz).Views final ⟨phases, p.shared, p.past⟩ p ∧ Inv phases p.shared p.past ∧
      J phases p.shared p.past := by
  have hI : Discipline.Invariant (system maxsz rule) (protocol maxsz) initial final ok
      (fun v => Inv v.phases v.shared v.past ∧ J v.phases v.shared v.past) :=
    ⟨fun h hi hmay _ hok => ⟨h.1.start hi (initial_of_mayStart hmay),
        hJ.start h.1 h.2 hi (initial_of_mayStart hmay) hok⟩,
      fun h hi hallows hact hok => ⟨h.1.act hi hallows hact, hJ.act h.1 h.2 hi hallows hact hok⟩,
      fun h henv hok => ⟨h.1.env henv, hJ.env h.1 h.2 henv hok⟩⟩
  obtain ⟨⟨phases, w, past⟩, hviews, hinv⟩ := hI.of_run (fun op => method_keeps op)
    ⟨_, attached_views maxsz rounds, Inv.init maxsz rounds, hinit⟩ hok hrun
  obtain rfl : w = p.shared := hviews.shared
  obtain rfl : past = p.past := hviews.past
  exact ⟨phases, hviews, hinv⟩

theorem inv_of_client_run (hrun : run (system maxsz rule) ls (attached maxsz rounds) = some p) :
    ∃ phases, (protocol maxsz).Views final ⟨phases, p.shared, p.past⟩ p ∧ Inv phases p.shared p.past := by
  have hJ : Extends maxsz rule (fun _ _ _ => True) (fun _ _ _ => True) :=
    ⟨fun _ _ _ _ _ => trivial, fun _ _ _ _ _ _ => trivial, fun _ _ _ _ => trivial⟩
  obtain ⟨phases, hviews, hinv, -⟩ := hJ.of_run trivial (careful_true _ _) hrun
  exact ⟨phases, hviews, hinv⟩

/-- In every run no two calls in progress have the same id, no call has the id 0, and what a
call receives and what an operation returns is the message that the server has produced
for it. -/
theorem replies_reach_callers (hrun : run (system maxsz rule) ls (attached maxsz rounds) = some p) :
    ((underway p.past).map Prod.snd).Nodup ∧ (∀ i mid, (i, mid) ∈ underway p.past → mid ≠ 0) ∧
      (∀ ev ∈ p.past, ∀ i resp, receipt ev = some (i, resp) → Answered p.past i resp) ∧
      ∀ i resp, p.results i = some (.ok (.message resp), ()) → Answered p.past i resp := by
  obtain ⟨phases, hviews, hinv⟩ := inv_of_client_run hrun
  refine ⟨?_, ?_, ?_, ?_⟩
  · rw [hinv.registered.ids]
    exact hinv.registered.keys
  · intro i mid hmem
    obtain ⟨ch, hch⟩ := hinv.registered.slot_of_underway hmem
    exact (hinv.registered.entry hch).2
  · intro ev hev i resp hresp
    exact hinv.answers.received hev hresp
  · intro i resp hresult
    obtain ⟨op, ph, hphase, hfinal⟩ := Discipline.final_of_result (hviews.fits i) hresult
    apply hinv.answers.kept
    rw [part_of_phase hphase, hfinal]
    rfl

/-- A call of `TGetRoot` that is answered. -/
def getRootRun : List ClientLabel :=
  [.start 1 .tGetRoot, .act 1 .go, .act 1 (.received false), .act 1 .go,
    .env (.answer 1 ⟨.RGetRoot, (1, [], [], [], true, ())⟩), .act 0 .go, .act 0 .go, .act 0 .go,
    .act 1 .go, .act 1 .go]

def messageOf : Option Outcome → Option Held
  | some (.ok (.message resp), ()) => some resp
  | _ => none

theorem messageOf_eq_some {o : Option Outcome} {resp : Held} (h : messageOf o = some resp) :
    o = some (.ok (.message resp), ()) := by
  unfold messageOf at h
  split at h <;> cases h
  rfl

/-- While the call waits, another one is made, and it is answered first. -/
def twoCalls : List ClientLabel :=
  getRootRun.take 4 ++ [.start 2 .tGetEpoch, .act 2 .go, .act 2 (.received false), .act 2 .go,
    .env (.answer 2 ⟨.RGetEpoch, (2, [], ())⟩), .act 0 .go, .act 0 .go, .act 0 .go] ++ getRootRun.drop 4 ++
    [.act 2 .go, .act 2 .go]

theorem replies_reach_callers_two : ∃ p resp resp',
    run (system 100 fun _ _ _ => true) twoCalls (attached 100 2) = some p ∧
      Answered p.past 1 resp ∧ resp.type = .RGetRoot ∧ Answered p.past 2 resp' ∧ resp'.type = .RGetEpoch := by
  have htypes : ((run (system 100 fun _ _ _ => true) twoCalls (attached 100 2)).bind fun p =>
      (messageOf (p.results 1)).bind fun resp => (messageOf (p.results 2)).bind fun resp' =>
        some (resp.type, resp'.type)) = some (.RGetRoot, .RGetEpoch) := by decide +kernel
  simp only [Option.bind_eq_some_iff, Option.some.injEq, Prod.mk.injEq] at htypes
  obtain ⟨p, hp, resp, hresp, resp', hresp', htype, htype'⟩ := htypes
  obtain ⟨-, -, -, hresults⟩ := replies_reach_callers hp
  exact ⟨p, resp, resp', hp, hresults 1 resp (messageOf_eq_some hresp), htype,
    hresults 2 resp' (messageOf_eq_some hresp'), htype'⟩

end Replies

end Bpy.RemoteCalls
