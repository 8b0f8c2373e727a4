import Bpy.GcMark

/-!
# The mark phase visits what can be reached

The visited set is closed: with a hash it contains what can be reached from it, so a
tree that was visited in one role need not be visited again in another. A call either
adds exactly what can be reached from its argument, or it fails, because the store fails
or because it nests too deep.
-/
namespace Bpy.GcMarkExact
open ByteWords InteractionPrograms ContentStore HashTreeWriter HashTreeContent HashTreeStreams
open References Directories ObjectGraph ProgramLogic GcMark Method
open List hiding get lt_of_le_of_lt

section Outcome

variable (stored : Hash → Bytes → Prop)

/-- With a hash `v` contains everything below it. -/
def Closed (v : List Hash) : Prop := ∀ h ∈ v, ∀ x, Reach stored (.tree h) x → x ∈ v

/-- With a hash `X` contains everything below it. -/
def ClosedBelow (X : Hash → Prop) : Prop := ∀ x y, X x → Reach stored (.tree x) y → X y

/-- The hashes in `X` have been added to `v`. -/
def Marked (v : List Hash) (X : Hash → Prop) (v' : List Hash) : Prop := ∀ x, x ∈ v' ↔ x ∈ v ∨ X x

variable {stored} {v v' : List Hash} {X Y : Hash → Prop}

theorem Closed.marked (hv : Closed stored v) (hX : ClosedBelow stored X) (h : Marked v X v') : Closed stored v' := by
  intro x hx y hy
  rcases (h x).mp hx with hx | hx
  · exact (h y).mpr (Or.inl (hv x hx y hy))
  · exact (h y).mpr (Or.inr (hX x y hx hy))

theorem Marked.trans {v'' : List Hash} (h : Marked v X v') (h' : Marked v' Y v'') :
    Marked v (fun x => X x ∨ Y x) v'' := by
  intro x
  rw [h' x, h x, or_assoc]

theorem Marked.congr (h : Marked v X v') (hXY : ∀ x, X x ↔ Y x) : Marked v Y v' := by
  intro x
  rw [h x, hXY x]

theorem closedBelow_reach (o : Obj) : ClosedBelow stored (Reach stored o) :=
  fun _ _ hx hy => Relation.ReflTransGen.trans hx hy

/-- The call has marked `X`, or it has failed; `low` says that it may nest too deep. -/
def Outcome (s : List Bytes) (faulty low : Prop) (v : List Hash) (X : Hash → Prop)
    (res : Except GoError Unit) (v' : List Hash) (s' : List Bytes) : Prop :=
  s' = s ∧ ((res = .ok () ∧ Marked v X v') ∨ ((∃ e, res = .error e) ∧ (faulty ∨ low)))

end Outcome

private theorem exists_common_bound {α : Type} {P : α → ℕ → Prop} {xs : List α}
    (hmono : ∀ a m m', m ≤ m' → P a m → P a m') (h : ∀ a ∈ xs, ∃ m, P a m) :
    ∃ m, ∀ a ∈ xs, P a m := by
  induction xs with
  | nil => exact ⟨0, by simp⟩
  | cons a xs ih =>
    obtain ⟨m, hm⟩ := ih (fun b hb => h b (mem_cons_of_mem a hb))
    obtain ⟨m', hm'⟩ := h a mem_cons_self
    refine ⟨max m m', fun b hb => ?_⟩
    rcases mem_cons.mp hb with rfl | hb
    · exact hmono b m' _ (le_max_right m m') hm'
    · exact hmono b m _ (le_max_left m m') (hm b hb)

section Specs

variable {sha256 : Bytes → Hash} {faulty : Prop} {s : List Bytes}

/-- `x` marks `X` when it starts with any closed set. -/
def Marks (sha256 : Bytes → Hash) (faulty : Prop) (s : List Bytes) (low : Prop) (x : MarkM Unit)
    (X : Hash → Prop) : Prop :=
  ∀ v, Closed (Stored sha256 s) v →
    Method.wp (storeWorld sha256 faulty) (fun _ q => Reads q) x (Outcome s faulty low v X) v s

variable {low low' : Prop} {x y : MarkM Unit} {X Y : Hash → Prop}

theorem Marks.mono (h : Marks sha256 faulty s low x X) (hlow : low → low') (hX : ∀ z, X z ↔ Y z) :
    Marks sha256 faulty s low' x Y := by
  intro v hv
  refine wp_mono ?_ _ _ _ (h v hv)
  rintro res v' s' ⟨hs, ⟨hok, hm⟩ | ⟨herr, hcause⟩⟩
  · exact ⟨hs, Or.inl ⟨hok, hm.congr hX⟩⟩
  · exact ⟨hs, Or.inr ⟨herr, hcause.imp_right hlow⟩⟩

theorem Marks.seq (hx : Marks sha256 faulty s low x X) (hy : Marks sha256 faulty s low y Y)
    (hX : ClosedBelow (Stored sha256 s) X) : Marks sha256 faulty s low (x >>= fun _ => y) (fun z => X z ∨ Y z) := by
  intro v hv
  refine wp_seq (hx v hv) ?_ ?_
  · rintro u v₁ s₁ ⟨rfl, ⟨-, hm⟩ | ⟨⟨e, he⟩, -⟩⟩
    · refine wp_mono ?_ _ _ _ (hy v₁ (hv.marked hX hm))
      rintro res v₂ s₂ ⟨hs, ⟨hok, hm₂⟩ | herr⟩
      · exact ⟨hs, Or.inl ⟨hok, hm.trans hm₂⟩⟩
      · exact ⟨hs, Or.inr herr⟩
    · simp at he
  · rintro e v₁ s₁ ⟨hs, ⟨hok, -⟩ | ⟨-, hcause⟩⟩
    · simp at hok
    · exact ⟨hs, Or.inr ⟨⟨e, rfl⟩, hcause⟩⟩

theorem marks_pure : Marks sha256 faulty s low (pure ()) (fun _ => False) :=
  fun _ _ => ⟨rfl, Or.inl ⟨rfl, by simp [Marked]⟩⟩

theorem marks_overflow (hlow : low) : Marks sha256 faulty s low (goPanic "stack overflow") X :=
  fun _ _ => ⟨rfl, Or.inr ⟨⟨_, rfl⟩, Or.inr hlow⟩⟩

variable {es : Children} {h : Hash} {d : Bytes} {n : ℕ} {t : HTree} {ents : List DirEnt}

theorem forEntries_spec {f : Hash → MarkM Unit}
    (hf : ∀ h ∈ es.map Prod.fst, Marks sha256 faulty s low (f h) (Reach (Stored sha256 s) (.tree h)))
    (off rounds : ℕ) (hr : es.length ≤ rounds) :
    Marks sha256 faulty s low (forEntries f rounds (encodeEntries off es))
      (fun x => ∃ h ∈ es.map Prod.fst, Reach (Stored sha256 s) (.tree h) x) := by
  induction es generalizing off rounds with
  | nil =>
    have hnil : forEntries f rounds (encodeEntries off []) = pure () := by
      cases rounds <;> rfl
    rw [hnil]
    exact marks_pure.mono id (by simp)
  | cons e es ih =>
    cases rounds with
    | zero => simp at hr
    | succ rounds =>
      have hlen : (leBytes 8 off ++ e.1.bytes).length = 40 := by simp [e.1.length_bytes]
      have hne : encodeEntries off (e :: es) ≠ [] := by
        intro hnil
        have := congrArg length hnil
        simp at this
      have hroom : ¬ (encodeEntries off (e :: es)).length < 40 := by
        simp only [length_encodeEntries, length_cons]
        omega
      have hhash : Hash.copy (((encodeEntries off (e :: es)).drop 8).take 32) = e.1 := by
        rw [encodeEntries, append_assoc, List.drop_left' (length_leBytes 8 off),
          List.take_left' e.1.length_bytes, Hash.copy_bytes]
      have hrest : (encodeEntries off (e :: es)).drop 40 = encodeEntries (off + e.2.length) es := by
        rw [encodeEntries, List.drop_left' hlen]
      rw [forEntries, if_neg hne, if_neg hroom, hhash, hrest]
      have htail := ih (fun h hh => hf h (mem_cons_of_mem _ hh)) (off + e.2.length) rounds
        (Nat.le_of_succ_le_succ hr)
      exact ((hf e.1 mem_cons_self).seq htail (closedBelow_reach _)).mono id (by simp)

variable (hinj : Set.InjOn sha256 {c | c ∈ s})
include hinj

theorem marks_visit_leaf {off : ℕ} (hh : Holds (Stored sha256 s) 0 off h d) :
    Marks sha256 faulty s low (visit h) (Reach (Stored sha256 s) (.tree h)) := by
  intro v hv
  refine ⟨rfl, Or.inl ⟨rfl, fun z => ?_⟩⟩
  rw [reach_tree (functional_stored hinj) hh.1]
  simp [children, or_comm]

theorem wp_get_seq {v : List Hash} {c : Bytes} {f : Bytes → MarkM Unit} (hc : Stored sha256 s h c)
    (hf : wp (storeWorld sha256 faulty) (fun _ q => Reads q) (f c) (Outcome s faulty low v X) v s) :
    wp (storeWorld sha256 faulty) (fun _ q => Reads q) (get h >>= f) (Outcome s faulty low v X) v s := by
  refine wp_seq (get_wp v hinj hc) ?_ ?_
  · rintro c' v' s' ⟨rfl, rfl, hc' | ⟨-, e, he⟩⟩
    · rw [Except.ok.inj hc']
      exact hf
    · simp at he
  · rintro e v' s' ⟨rfl, rfl, he | ⟨hfaulty, -⟩⟩
    · simp at he
    · exact ⟨rfl, Or.inr ⟨⟨e, rfl⟩, Or.inl hfaulty⟩⟩

theorem marks_node {k off : ℕ} (hk : k + 1 < nlevels) (hx : Marks sha256 faulty
      s low x (fun z => ∃ h ∈ es.map Prod.fst, Reach (Stored sha256 s) (.tree h) z))
    (hs : Stored sha256 s h (tag (k + 1) :: encodeEntries off es)) :
    Marks sha256 faulty s low (x >>= fun _ => visit h) (Reach (Stored sha256 s) (.tree h)) := by
  intro v hv
  refine wp_seq (hx v hv) ?_ ?_
  · rintro u v₁ s₁ ⟨rfl, ⟨-, hm⟩ | ⟨⟨e, he⟩, -⟩⟩
    · refine ⟨rfl, Or.inl ⟨rfl, fun z => ?_⟩⟩
      rw [reach_tree (functional_stored hinj) hs, children_node hk, mem_cons, hm z]
      tauto
    · simp at he
  · rintro e v₁ s₁ ⟨rfl, ⟨hok, -⟩ | ⟨-, hcause⟩⟩
    · simp at hok
    · exact ⟨rfl, Or.inr ⟨⟨e, rfl⟩, hcause⟩⟩

theorem markHTree_spec {k off : ℕ} (hk : k < nlevels) (hh : Holds (Stored sha256 s) k off h d) :
    Marks sha256 faulty s (n ≤ k) (markHTree n h) (Reach (Stored sha256 s) (.tree h)) := by
  have hfun := functional_stored hinj
  induction n generalizing k off h d with
  | zero => exact marks_overflow (Nat.zero_le k)
  | succ n ih =>
    intro v hv
    simp only [markHTree, wp_bind, wp_self, Method.after]
    split
    · next hmem =>
      refine ⟨rfl, Or.inl ⟨rfl, fun x => ⟨Or.inl, ?_⟩⟩⟩
      rintro (hx | hx)
      · exact hx
      · exact hv h hmem x hx
    · -- the chunk of `h` decides between a leaf and a node
      cases k with
      | zero =>
        refine wp_get_seq hinj hh.1 ?_
        exact marks_visit_leaf hinj hh v hv
      | succ k =>
        obtain ⟨es, -, -, -, hs, hchain⟩ := hh
        refine wp_get_seq hinj hs ?_
        simp only [if_neg (tag_ne_zero hk)]
        refine marks_node hinj hk (forEntries_spec (fun h' hh' => ?_) off _ ?_) hs v hv
        · obtain ⟨off', d', hchild, -⟩ := hchain.of_mem hh'
          have hrec : Marks sha256 faulty s (n + 1 ≤ k + 1) (markHTree n h') _ :=
            (ih (Nat.lt_of_succ_lt hk) hchild).mono Nat.succ_le_succ (fun _ => Iff.rfl)
          split
          · next hlvl =>
            have hk0 : k = 0 := Nat.succ.inj (tag_inj hk (by decide) (hlvl.trans (show (1 : UInt8) = tag 1 from rfl)))
            subst hk0
            exact ((marks_visit_leaf hinj hchild).seq hrec (closedBelow_reach _)).mono id (by simp)
          · exact hrec
        · simp only [length_encodeEntries]
          omega

theorem marks_entry_tree (ht : Tree (Stored sha256 s) t d) (hn : n ≤ t.depth → low) :
    Marks sha256 faulty s low (markEntTree (markHTree n) t) (Reach (Stored sha256 s) (.tree t.data)) := by
  rw [markEntTree]
  split
  · next h0 => exact marks_visit_leaf hinj (h0 ▸ ht.holds)
  · exact (markHTree_spec hinj (Nat.lt_of_succ_lt ht.depth_lt) ht.holds).mono hn (fun _ => Iff.rfl)

theorem markEnts_spec {markDir : Hash → MarkM Unit}
    (hfiles : ∀ e ∈ ents, (∃ d, Tree (Stored sha256 s) e.htree d) ∧ (n ≤ e.htree.depth → low))
    (hdirs : ∀ e ∈ ents, e.isDir = true →
      Marks sha256 faulty s low (markDir e.htree.data) (Reach (Stored sha256 s) (.dir e.htree.data))) :
    Marks sha256 faulty s low (markEnts markDir (markHTree n) ents)
      (fun x => ∃ e ∈ ents, Reach (Stored sha256 s) (entObj e) x) := by
  induction ents with
  | nil => exact marks_pure.mono id (by simp)
  | cons e ents ih =>
    obtain ⟨⟨d, ht⟩, hn⟩ := hfiles e mem_cons_self
    have htree : Marks sha256 faulty s low (markEntTree (markHTree n) e.htree)
        (Reach (Stored sha256 s) (.tree e.htree.data)) := marks_entry_tree hinj ht hn
    have hrest := ih (fun e' he' => hfiles e' (mem_cons_of_mem _ he'))
      (fun e' he' => hdirs e' (mem_cons_of_mem _ he'))
    have htail := htree.seq hrest (closedBelow_reach _)
    cases hdir : e.isDir with
    | true =>
      have hboth := (hdirs e mem_cons_self hdir).seq htail (closedBelow_reach _)
      simp only [markEnts, hdir, if_true]
      refine hboth.mono id (fun z => ?_)
      -- the tree of a folder is reached from the folder
      have hsub : Reach (Stored sha256 s) (.tree e.htree.data) z → Reach (Stored sha256 s) (.dir e.htree.data) z :=
        Relation.ReflTransGen.head (Link.dirTree _)
      simp only [mem_cons, exists_eq_or_imp, entObj, hdir, if_true]
      tauto
    | false =>
      simp only [markEnts, hdir, Bool.false_eq_true, if_false]
      refine htail.mono id (fun z => ?_)
      simp [entObj, hdir]

theorem wp_readDir_seq (room : ℕ → ℕ) {dot : DirEnt}
    {f : List DirEnt → MarkM Unit} (ht : Tree (Stored sha256 s) t (encodeEnts (dot :: ents)))
    (henc : ∀ e ∈ dot :: ents, e.Encodable) (hf : Marks sha256 faulty s low (f ents) X) :
    Marks sha256 faulty s low (readDir room t.data >>= fun dirEnts => f dirEnts.tail) X := by
  intro v hv
  refine wp_seq (readDir_wp room v hinj ht henc) ?_ ?_
  · rintro dirEnts v' s' ⟨rfl, rfl, hd | ⟨-, e, he⟩⟩
    · rw [Except.ok.inj hd]
      exact hf _ hv
    · simp at he
  · rintro e v' s' ⟨rfl, rfl, he | ⟨hfaulty, -⟩⟩
    · simp at he
    · exact ⟨rfl, Or.inr ⟨⟨e, rfl⟩, Or.inl hfaulty⟩⟩

theorem markFsDir_spec (room : ℕ → ℕ) (ht : SoundDir (Stored sha256 s) t) :
    ∃ n₀, ∀ n, Marks sha256 faulty s (n < n₀) (markFsDir room n t.data) (Reach (Stored sha256 s) (.dir t.data)) := by
  induction ht with
  | @intro t dot ents ht henc hfiles _ ih =>
    obtain ⟨m, hm⟩ : ∃ m, ∀ e ∈ ents, e.isDir = true → ∀ n, Marks sha256 faulty s (n < m)
        (markFsDir room n e.htree.data) (Reach (Stored sha256 s) (.dir e.htree.data)) := by
      apply exists_common_bound
      · intro e m m' hle h hdir n
        exact (h hdir n).mono (fun hn => lt_of_lt_of_le hn hle) (fun _ => Iff.rfl)
      · intro e he
        by_cases hdir : e.isDir = true
        · obtain ⟨m, hm⟩ := ih e he hdir
          exact ⟨m, fun _ => hm⟩
        · exact ⟨0, fun h => absurd h hdir⟩
    refine ⟨max m nlevels + 1, fun n => ?_⟩
    cases n with
    | zero => exact marks_overflow (Nat.succ_pos _)
    | succ n =>
      have hlow : ∀ k, k < nlevels → n ≤ k → n + 1 < max m nlevels + 1 := by
        intro k hk hn
        exact Nat.succ_lt_succ (lt_max_of_lt_right (lt_of_le_of_lt hn hk))
      have hdepth := Nat.lt_of_succ_lt ht.depth_lt
      have hroot : Marks sha256 faulty s (n + 1 < max m nlevels + 1) (markHTree n t.data) _ :=
        (markHTree_spec hinj hdepth ht.holds).mono (hlow _ hdepth) (fun _ => Iff.rfl)
      have hents : Marks sha256 faulty s (n + 1 < max m nlevels + 1) (markEnts (markFsDir room n) (markHTree n) ents)
          (fun x => ∃ e ∈ ents, Reach (Stored sha256 s) (entObj e) x) := by
        apply markEnts_spec hinj
        · intro e he
          obtain ⟨d, hd⟩ := hfiles e he
          exact ⟨⟨d, hd⟩, hlow _ (Nat.lt_of_succ_lt hd.depth_lt)⟩
        · intro e he hdir
          exact (hm e he hdir n).mono (fun h => Nat.succ_lt_succ (lt_max_of_lt_left h)) (fun _ => Iff.rfl)
      refine (hroot.seq (wp_readDir_seq hinj room ht henc hents) (closedBelow_reach _)).mono id ?_
      intro z
      exact (reach_dir (functional_stored hinj) ⟨t.depth, dot, ht, henc⟩).symm

omit hinj in
/-- What is not stored cannot be marked. The zero ref that `GetRef` returns after an error
of the store ends here. -/
theorem markFsDir_unstored (room : ℕ → ℕ) (n : ℕ) {v : List Hash} (hh : ∀ c ∈ s, sha256 c ≠ h) (hv : h ∉ v) :
    wp (storeWorld sha256 faulty) (fun _ q => Reads q) (markFsDir room n h)
      (fun res _ s' => s' = s ∧ ∃ e, res = .error e) v s := by
  have htree : ∀ n, wp (storeWorld sha256 faulty) (fun _ q => Reads q) (markHTree n h)
      (fun res _ s' => s' = s ∧ ∃ e, res = .error e) v s := by
    intro n
    cases n with
    | zero => exact ⟨rfl, _, rfl⟩
    | succ n =>
      simp only [markHTree, wp_bind, wp_self, Method.after, if_neg hv]
      refine wp_mono ?_ _ _ _ (get_wp_unstored v hh)
      rintro res v' s' ⟨rfl, e, rfl⟩
      exact ⟨rfl, e, rfl⟩
  cases n with
  | zero => exact ⟨rfl, _, rfl⟩
  | succ n =>
    refine wp_seq (htree n) ?_ (fun e v' s' h => ⟨h.1, e, rfl⟩)
    rintro u v' s' ⟨-, e, he⟩
    simp at he

omit hinj in
theorem Marked.stored {v v' : List Hash} (h : Marked v X v') (hv : ∀ x ∈ v, ∃ c, Stored sha256 s x c)
    (hX : ∀ x, X x → ∃ c, Stored sha256 s x c) : ∀ x ∈ v', ∃ c, Stored sha256 s x c := by
  intro x hx
  rcases (h x).mp hx with hx | hx
  · exact hv x hx
  · exact hX x hx

omit hinj in
theorem wp_ref_rest {room : ℕ → ℕ} {r : Ref} {v : List Hash} {lowDir lowPrev : Prop}
    (hlowDir : lowDir → low) (hlowPrev : lowPrev → low)
    (hdir : wp (storeWorld sha256 faulty) (fun _ q => Reads q) (markFsDir room n r.root)
      (Outcome s faulty lowDir v (Reach (Stored sha256 s) (.dir r.root))) v s)
    (hprev : ∀ v', r.hasPrev = true → Marked v (Reach (Stored sha256 s) (.dir r.root)) v' →
      wp (storeWorld sha256 faulty) (fun _ q => Reads q) (markRef room n r.prev)
        (Outcome s faulty lowPrev v' (Reach (Stored sha256 s) (.ref r.prev))) v' s) :
    wp (storeWorld sha256 faulty) (fun _ q => Reads q)
      (do
        markFsDir room n r.norm.root
        if r.norm.hasPrev then markRef room n r.norm.prev else pure ())
      (Outcome s faulty low v (fun x => Reach (Stored sha256 s) (.dir r.root) x ∨
        (r.hasPrev = true ∧ Reach (Stored sha256 s) (.ref r.prev) x))) v s := by
  refine wp_seq hdir ?_ ?_
  · rintro u v' s' ⟨rfl, ⟨-, hm⟩ | ⟨⟨e, he⟩, -⟩⟩
    · by_cases hp : r.hasPrev = true
      · simp only [Ref.norm, hp, if_true]
        refine wp_mono ?_ _ _ _ (hprev v' hp hm)
        rintro res v'' s'' ⟨hs, ⟨hok, hm'⟩ | ⟨herr, hcause⟩⟩
        · exact ⟨hs, Or.inl ⟨hok, (hm.trans hm').congr (by simp)⟩⟩
        · exact ⟨hs, Or.inr ⟨herr, hcause.imp_right hlowPrev⟩⟩
      · simp only [Ref.norm, hp]
        exact ⟨rfl, Or.inl ⟨rfl, hm.congr (by simp)⟩⟩
    · simp at he
  · rintro e v' s' ⟨rfl, ⟨hok, -⟩ | ⟨-, hcause⟩⟩
    · simp at hok
    · exact ⟨rfl, Or.inr ⟨⟨e, rfl⟩, hcause.imp_right hlowDir⟩⟩

theorem markRef_spec (room : ℕ → ℕ) (hzero : faulty → ∀ c ∈ s, sha256 c ≠ Hash.zero)
    (hr : SoundRef (Stored sha256 s) h) :
    ∃ n₀, ∀ n v, Closed (Stored sha256 s) v → (∀ x ∈ v, ∃ c, Stored sha256 s x c) →
      wp (storeWorld sha256 faulty) (fun _ q => Reads q) (markRef room n h)
        (Outcome s faulty (n < n₀) v (Reach (Stored sha256 s) (.ref h))) v s := by
  have hfun := functional_stored hinj
  induction hr with
  | @intro k h r t hr ht hroot _ ih =>
    obtain ⟨m, hm⟩ : ∃ m, ∀ n, Marks sha256 faulty s (n < m) (markFsDir room n t.data)
        (Reach (Stored sha256 s) (.dir t.data)) := markFsDir_spec hinj room hroot
    obtain ⟨m', hm'⟩ : ∃ m', r.hasPrev = true → ∀ n v, Closed (Stored sha256 s) v →
        (∀ x ∈ v, ∃ c, Stored sha256 s x c) →
        wp (storeWorld sha256 faulty) (fun _ q => Reads q) (markRef room n r.prev)
          (Outcome s faulty (n < m') v (Reach (Stored sha256 s) (.ref r.prev))) v s := by
      by_cases hp : r.hasPrev = true
      · obtain ⟨m', hm'⟩ := ih hp
        exact ⟨m', fun _ => hm'⟩
      · exact ⟨0, fun h => absurd h hp⟩
    refine ⟨max (max m m') nlevels + 1, fun n v hv hst => ?_⟩
    cases n with
    | zero => exact marks_overflow (Nat.succ_pos _) v hv
    | succ n =>
      have hdepth : k < nlevels := Nat.lt_of_succ_lt hr.depth_lt
      refine wp_seq (markHTree_spec hinj hdepth hr.holds v hv) ?_ ?_
      · rintro u v₁ s₁ ⟨rfl, ⟨-, hm₁⟩ | ⟨⟨e, he⟩, -⟩⟩
        · have hv₁ := hv.marked (closedBelow_reach _) hm₁
          have hst₁ := hm₁.stored hst (fun x hx => stored_of_reach_tree hfun hdepth hr.holds hx)
          refine wp_seq (getRef_wp room v₁ hinj hr) ?_ ?_
          · rintro ref v₂ s₂ ⟨rfl, rfl, href | ⟨hfaulty, href | ⟨e, he⟩⟩⟩
            · rw [Except.ok.inj href]
              have hlowₘ : n < m → n + 1 < max (max m m') nlevels + 1 := fun hn =>
                Nat.succ_lt_succ (lt_max_of_lt_left (lt_max_of_lt_left hn))
              have hlowₘ' : n < m' → n + 1 < max (max m m') nlevels + 1 := fun hn =>
                Nat.succ_lt_succ (lt_max_of_lt_left (lt_max_of_lt_right hn))
              refine wp_mono ?_ _ _ _ (wp_ref_rest hlowₘ hlowₘ' (ht ▸ hm n v₂ hv₁) ?_)
              · rintro res v₃ s₃ ⟨hs, ⟨hok, hm₃⟩ | herr⟩
                · refine ⟨hs, Or.inl ⟨hok, (hm₁.trans hm₃).congr (fun z => ?_)⟩⟩
                  exact (reach_ref hfun ⟨k, hr⟩).symm
                · exact ⟨hs, Or.inr herr⟩
              · intro v₃ hp hm₃
                refine hm' hp n v₃ (hv₁.marked (closedBelow_reach _) hm₃) (hm₃.stored hst₁ ?_)
                exact fun x hx => stored_of_reach_dir hfun hroot (ht ▸ hx)
            · -- the error of the store was dropped, and marking the zero hash fails
              rw [Except.ok.inj href]
              have hz : Hash.zero ∉ v₂ := by
                intro hmem
                obtain ⟨c, hc⟩ := hst₁ _ hmem
                exact hzero hfaulty c hc.1 hc.2
              refine wp_seq (markFsDir_unstored room n (hzero hfaulty) hz) ?_ ?_
              · rintro u v₃ s₃ ⟨-, e, he⟩
                simp at he
              · rintro e v₃ s₃ ⟨rfl, -⟩
                exact ⟨rfl, Or.inr ⟨⟨e, rfl⟩, Or.inl hfaulty⟩⟩
            · simp at he
          · rintro e v₂ s₂ ⟨rfl, rfl, he | ⟨hfaulty, -⟩⟩
            · simp at he
            · exact ⟨rfl, Or.inr ⟨⟨e, rfl⟩, Or.inl hfaulty⟩⟩
        · simp at he
      · rintro e v₁ s₁ ⟨rfl, ⟨hok, -⟩ | ⟨-, hcause⟩⟩
        · simp at hok
        · refine ⟨rfl, Or.inr ⟨⟨e, rfl⟩, hcause.imp_right (fun hn => ?_)⟩⟩
          exact Nat.succ_lt_succ (lt_max_of_lt_right (lt_of_le_of_lt hn hdepth))

/-- Marking from a ref of a store that the writers built visits exactly what can be
reached from it, whenever it succeeds, also if the store may fail. It does succeed if the
store does not fail and the calls may nest deep enough. -/
theorem markRef_exact (room : ℕ → ℕ) {files dirs : Set HTree} {refs : Set Hash} {root : Hash}
    (hb : Built sha256 s files dirs refs) (hroot : root ∈ refs) :
    (∀ faulty : Prop, (faulty → ∀ c ∈ s, sha256 c ≠ Hash.zero) → ∀ n v s',
      Prog.Runs (storeWorld sha256 faulty) (markRef room n root []) s (.done (.ok (), v)) s' →
        ∀ h, h ∈ v ↔ Reach (Stored sha256 s) (.ref root) h) ∧
    ∃ n₀, ∀ n, n₀ ≤ n → ∃ v, Method.exec (memStore sha256) (markRef room n root) [] s = (.ok (), v, s) := by
  have hsound := hb.sound.refs root hroot
  have hnil : Closed (Stored sha256 s) [] := fun h hh => by simp at hh
  constructor
  · intro faulty hzero n v s' hrun
    obtain ⟨n₀, hspec⟩ := markRef_spec hinj room hzero hsound
    obtain ⟨-, ⟨-, hm⟩ | ⟨⟨e, he⟩, -⟩⟩ := Prog.wp_of_runs hrun (hspec n [] hnil (by simp))
    · intro h
      rw [hm h]
      simp
    · simp at he
  · obtain ⟨n₀, hspec⟩ := markRef_spec hinj room (fun h : False => h.elim) hsound
    refine ⟨n₀, fun n hn => ?_⟩
    have hrun : Prog.Runs (storeWorld sha256 False) (markRef room n root []) s _ _ := runs_memStore rfl
    obtain ⟨hs, ⟨hok, -⟩ | ⟨-, hfaulty | hlow⟩⟩ := Prog.wp_of_runs hrun (hspec n [] hnil (by simp))
    · exact ⟨_, Prod.ext hok (Prod.ext rfl hs)⟩
    · exact hfaulty.elim
    · omega

end Specs

section Example

/-- A hash for small stores. -/
def frontHash (c : Bytes) : Hash := Hash.copy (1 :: c)

/-- A file of three bytes. -/
def noteEnt : DirEnt := ⟨ascii "a", 3, 0, 420, ⟨0, frontHash [0, 1, 2, 3]⟩⟩

def noteDir : Bytes := 0 :: encodeEnts [dotEnt 493, noteEnt]

def firstRef : Ref := ⟨0, frontHash noteDir, false, Hash.zero⟩

def firstRoot : Hash := frontHash (0 :: firstRef.encode)

/-- The chunks of a drive with the file, and one that nothing refers to. The first two come from
the deferred call in `PutRef`. -/
def smallDrive : List Bytes :=
  [tag 1 :: encodeEntries 0 [(firstRoot, firstRef.encode), (frontHash [0], [])],
    [0], 0 :: firstRef.encode, noteDir, [0, 1, 2, 3], [0, 9]]

theorem built_smallDrive : Built frontHash smallDrive {noteEnt.htree} {⟨0, frontHash noteDir⟩} {firstRoot} := by
  obtain ⟨w, hfile⟩ : ∃ w, exec (memStore frontHash) (HashTreeRoundTrip.writeTree [[1, 2, 3]]) newWriter [[0, 9]] =
      (.ok noteEnt.htree, w, [[0, 1, 2, 3], [0, 9]]) := ⟨_, rfl⟩
  have hdir : exec (memStore frontHash) (writeDir [noteEnt] 493) () [[0, 1, 2, 3], [0, 9]] =
      (.ok { dotEnt 493 with htree := ⟨0, frontHash noteDir⟩ }, (), [noteDir, [0, 1, 2, 3], [0, 9]]) := by
    decide +kernel
  have href : exec (memStore frontHash) (putRef firstRef) () [noteDir, [0, 1, 2, 3], [0, 9]] =
      (.ok firstRoot, (), smallDrive) := by
    decide +kernel
  have hents : ∀ e ∈ [noteEnt], e.htree ∈ if e.isDir then (∅ : Set HTree) else insert noteEnt.htree ∅ := by
    intro e he
    rw [mem_singleton.mp he]
    exact Or.inl rfl
  have hb := Built.ref (t := ⟨0, frontHash noteDir⟩) (.dir (.file (.start _) (by decide) hfile) hents hdir)
    (by simp) rfl (by simp [firstRef]) href
  simpa using hb

theorem injOn_smallDrive : Set.InjOn frontHash {c | c ∈ smallDrive} := injOn_of_list (by decide)

theorem reach_note : Reach (Stored frontHash smallDrive) (.ref firstRoot) (frontHash [0, 1, 2, 3]) := by
  have href : RefAt (Stored frontHash smallDrive) firstRoot firstRef :=
    ⟨0, ⟨⟨by decide, rfl⟩, by decide⟩, show 0 + 1 < nlevels by decide, by decide⟩
  have hdir : DirAt (Stored frontHash smallDrive) (frontHash noteDir) [noteEnt] :=
    ⟨0, dotEnt 493, ⟨⟨⟨by decide, rfl⟩, by decide⟩, show 0 + 1 < nlevels by decide, by decide⟩, fun e he => by
      rcases List.mem_pair.mp he with rfl | rfl
      · exact dotEnt_encodable 493
      · exact ⟨by decide, show 0 < 256 by decide⟩⟩
  exact .tail (.single (.refRoot href)) (.dirEnt hdir List.mem_cons_self)

theorem markRef_exact_small_drive : ∃ n v,
    Method.exec (memStore frontHash) (markRef (fun _ => 511) n firstRoot) [] smallDrive = (.ok (), v, smallDrive) ∧
    (∀ h, h ∈ v ↔ Reach (Stored frontHash smallDrive) (.ref firstRoot) h) ∧ frontHash [0, 1, 2, 3] ∈ v := by
  obtain ⟨hexact, n, hsucceeds⟩ := markRef_exact injOn_smallDrive (fun _ => 511) built_smallDrive rfl
  obtain ⟨v, hv⟩ := hsucceeds n le_rfl
  have hvisited := hexact False (fun h => h.elim) n v _ (runs_memStore hv)
  exact ⟨n, v, hv, hvisited, (hvisited _).mpr reach_note⟩

end Example

end Bpy.GcMarkExact
