import Bpy.TreeRewrites

/-!
# Hashes of changed trees

`Remove` of an entry that was inserted leads back to the hash of the old root, and entries
are inserted in both orders with the same result. Directories are written again with the
same bytes, so that the hash trees are the same at every level.
-/
namespace Bpy.TreeHashes
open ByteWords InteractionPrograms ContentStore HashTreeWriter Directories List
open FileTrees PathElements LinkedFolders ObjectGraph DirTrees TreeEdits TreeInsert TreeMove
open DuplicateNames HostBackup RewrittenFolders TreeRewrites Method

variable {ω : Type} {sha256 : Bytes → Hash} {s : List Bytes} {more : ℕ} {t : HTree} {mode : UInt32}
  {ents : List DirEnt} {p : Bytes} {a : DirEnt} {d : Listing} {stored : Hash → Bytes → Prop}

section Insert

variable (room : ℕ → ℕ) {s' : List Bytes} {w w' : ω}

theorem truncated_truncated (e : DirEnt) : truncated (truncated e) = truncated e := by
  simp [truncated]

theorem writeDir_cons_truncated (ent : DirEnt) (ents : List DirEnt) (mode : UInt32) :
    writeDir (ω := ω) (truncated ent :: ents) mode = writeDir (ent :: ents) mode := by
  rw [← writeDir_truncated (truncated ent :: ents), ← writeDir_truncated (ent :: ents), map_cons,
    map_cons, truncated_truncated]

theorem insertAt_truncated (ent : DirEnt) (path : List Bytes) (dest : Hash) :
    insertAt (ω := ω) room (truncated ent) path dest = insertAt room ent path dest := by
  induction path generalizing dest with
  | nil => simp only [insertAt, writeDir_cons_truncated]
  | cons elem path ih =>
    have hsame : insertAt (ω := ω) room (truncated ent) path = insertAt room ent path := funext ih
    simp only [insertAt, hsame]

/-- The entry as it is in the directory: with its new name, and the depth that can be read. -/
def placed (p : Bytes) (ent : DirEnt) : DirEnt := truncated (renamed p ent)

theorem insert_performs (p : Bytes) (ent : DirEnt) (hname : (placed p ent).entName.length ≤ 65535) :
    Performs (ω := ω) sha256 (inserted (placed p ent)) (fun d => Roomy 0 (placed p ent :: d.ents)) (dirElems p)
      (fun h => insert room h p ent) := by
  have hent : (placed p ent).Encodable := ⟨hname, Nat.mod_lt _ (by decide)⟩
  simp only [insert_eq, ← insertAt_truncated room (renamed p ent)]
  exact insertAt_performs room hent (proper_dirElems p)

variable {ent : DirEnt}

theorem insertAt_not_refused {a r : DirEnt} {path : List Bytes} {u u' : HTree} {d : Listing} {e : DirEnt}
    (hinj : Set.InjOn sha256 {c | c ∈ s}) (hpath : ∀ n ∈ path, Proper n)
    (hf : (links (functional_stored hinj)).folder e = some u)
    (ha : (links (functional_stored hinj)).Resolves e path (.ok a))
    (hu' : (links (functional_stored hinj)).folder a = some u') (hd : (links (functional_stored hinj)).contents u' d)
    (hrun : (exec (memStore sha256) (insertAt room ent path u.data) w s).1 = .ok r) : ¬ Refused (ent :: d.ents) := by
  induction path generalizing e u r w with
  | nil =>
    cases ha
    rw [hf, Option.some.injEq] at hu'
    subst hu'
    obtain ⟨-, t, ht, hfold⟩ := hd
    rw [insertAt, ← ht, exec_bind_ok _ (readDir_folder room w hinj hfold)] at hrun
    exact not_refused hrun
  | cons elem path ih =>
    cases ha with
    | @step _ b _ d₁ _ _ _ hf₁ hd₁ hb ha =>
      rw [hf, Option.some.injEq] at hf₁
      subst hf₁
      have hfind : findEnt d₁.ents elem = some b := hb
      obtain ⟨-, t, ht, hfold⟩ := hd₁
      rw [insertAt, ← ht, exec_changeFolder room w hinj hfold (hpath elem mem_cons_self), hfind] at hrun
      dsimp only at hrun
      split at hrun
      · rename_i hdir
        rw [exec_bind] at hrun
        cases hinner : (exec (memStore sha256) (insertAt room ent path b.htree.data) w s).1 with
        | ok r' => exact ih (fun n hn => hpath n (mem_cons_of_mem elem hn)) (folder_eq_some hdir) ha hinner
        | error err =>
          rcases hx : exec (memStore sha256) (insertAt room ent path b.htree.data) w s with ⟨x, w₁, s₁⟩
          rw [hx] at hinner hrun
          obtain rfl : x = .error err := hinner
          cases hrun
      · cases hrun

/-- A path in its shortest form that is not there, with a folder above it. -/
structure Vacant (walked : Bytes → Except GoError DirEnt) (p : Bytes) : Prop where
  absolute : p.head? = some slash
  clean : clean p = p
  absent : ∀ a, walked p ≠ .ok a
  above : ∃ a, walked (dir p) = .ok a ∧ a.isDir = true

/-- The folder above, and the name that it does not have. -/
structure Place {stored : Hash → Bytes → Prop} (hfun : Functional stored) (root : DirEnt) (p : Bytes) (a : DirEnt)
    (d : Listing) : Prop where
  found : (links hfun).Resolves root (dirElems p) (.ok a)
  isDir : a.isDir = true
  contents : (links hfun).contents a.htree d
  new : findEnt d.ents (base p) = none
  proper : Proper (base p)
  split : elems p = dirElems p ++ [base p]

theorem Vacant.place {t : HTree} {mode : UInt32} {ents : List DirEnt} {p : Bytes} {Q : List DirEnt → Prop}
    (hinj : Set.InjOn sha256 {c | c ∈ s}) (hf : Folder (Stored sha256 s) t mode ents)
    (htree : DirTree (Stored sha256 s) Q t.data)
    (h : Vacant (fun q => (exec (memStore sha256) (walk room t.data q) w s).1) p) :
    ∃ a d, (exec (memStore sha256) (walk room t.data (dir p)) w s).1 = .ok a ∧
      Place (functional_stored hinj) (rootEnt mode t) p a d := by
  have hrooted : rooted p = p := if_pos h.absolute
  have hne : p ≠ [slash] := by
    intro hp
    have hroot : (links (functional_stored hinj)).Resolves (rootEnt mode t) (elems p) (.ok (rootEnt mode t)) := by
      rw [hp, show elems [slash] = [] by decide]
      exact .here _
    exact h.absent _ (congrArg Prod.fst (exec_walk room w hinj hf hroot))
  have hproper := proper_base_of_clean h.absolute h.clean hne
  have hsplit := elems_eq_append hproper
  rw [hrooted] at hproper hsplit
  have hdir : elems (dir p) = dirElems p := by
    have hd := dir_rooted p
    rw [hrooted] at hd
    rw [hd, elems_clean (proper_dirElems p)]
  obtain ⟨a, hwalk, hisDir⟩ := h.above
  have hrun : exec (memStore sha256) (walk room t.data (dir p)) w s = (.ok a, _, _) := Prod.ext hwalk rfl
  obtain ⟨ha, -, -⟩ := resolves_of_walk room hinj hf htree hrun
  rw [hdir] at ha
  cases (htree.tree _).of_resolves (folder_rootEnt _ mode t) ha (folder_eq_some hisDir) with
  | @intro _ d hd _ _ =>
    refine ⟨a, d, hwalk, ha, hisDir, hd, ?_, hproper, hsplit⟩
    cases hfind : findEnt d.ents (base p) with
    | none => rfl
    | some b =>
      have hb := ha.append (.step (folder_eq_some hisDir) hd hfind (.here b))
      rw [← hsplit] at hb
      exact absurd (congrArg Prod.fst (exec_walk room w hinj hf hb)) (h.absent b)

theorem Place.entName_placed {stored : Hash → Bytes → Prop} {hfun : Functional stored} {root a : DirEnt}
    {p : Bytes} {d : Listing} (h : Place hfun root p a d) (habs : p.head? = some slash) (ent : DirEnt) :
    (placed p ent).entName = base p := by
  have hrooted : rooted p = p := if_pos habs
  have hbase : base (rooted p) ≠ [] := by
    rw [hrooted]
    exact h.proper.ne_nil
  rw [placed, renamed, if_neg hbase, hrooted]
  rfl

theorem findEnt_inserted {ents : List DirEnt} (hs : ents.Pairwise Before)
    (hnew : findEnt ents ent.entName = none) : findEnt (sortEnts (ent :: ents)) ent.entName = some ent := by
  rw [sortEnts_cons hs]
  apply findEnt_insert_self hs
  intro f hf
  rw [hnew] at hf
  cases hf

/-- A listing to which the entry can be added, with room for `more` bytes. -/
structure Takes (more : ℕ) (ent : DirEnt) (d : Listing) : Prop where
  sorted : d.ents.Pairwise Before
  new : findEnt d.ents ent.entName = none
  room : Roomy more (ent :: d.ents)

theorem Takes.roomy {d : Listing} (h : Takes more ent d) :
    Roomy more (inserted ent d).ents := h.room.perm (perm_sortEnts _).symm

theorem way_inserted {stored : Hash → Bytes → Prop} {hfun : Functional stored}
    {path path' : List Bytes} {t r : HTree} {P P' : Listing → Prop}
    (h : Rewritten (links hfun) (writeListing sha256) (inserted ent) path t r)
    (hplace : Way (links hfun) (fun _ d => Roomy more d.ents) (fun _ => Takes more ent) path t)
    (hout : ¬ path ++ [ent.entName] <+: path')
    (hP : ∀ d d', P d → (path ≠ path' ∧ d' = d) ∨ (path = path' ∧ Takes more ent d ∧ d' = inserted ent d) ∨
      (path ≠ path' ∧ ∃ m u, d' = (links hfun).relink d m u) → P' d')
    (hway : Way (links hfun) (fun _ d => Roomy more d.ents) (fun _ => P) path' t) :
    Way (links hfun) (fun _ d => Roomy more d.ents) (fun _ => P') path' r := by
  have hF : Way (links hfun) (fun _ _ => True) (fun _ => Takes more ent) path t :=
    hplace.mono (.refl _) (fun _ _ _ => trivial) (fun _ _ h => h)
  apply h.way (inserted_local hfun ent) hF hout _ hP hway
  intro d d' hQ hd'
  rcases hd' with rfl | ⟨hF, rfl⟩ | ⟨m, u, rfl⟩
  · exact hQ
  · exact hF.roomy
  · exact hQ.setTree u

section Succeeds

variable {root : Hash} {hfun : Functional stored} (hinj : Set.InjOn sha256 {c | c ∈ s})

section

variable (h : Place hfun (rootEnt mode t) p a d) (habs : p.head? = some slash)
include h habs

theorem Place.roomy {more : ℕ} (ent : DirEnt)
    (hroom : Roomy ((base p).length + 55 + more) d.ents) : Roomy more (placed p ent :: d.ents) := by
  have hname := h.entName_placed habs ent
  apply Roomy.cons
  · rw [hname]
    exact hroom
  · rw [hname]
    exact h.proper
  · rw [hname]
    exact h.new

theorem Place.takes {more : ℕ} (ent : DirEnt) (hroom : Roomy more (placed p ent :: d.ents)) :
    Takes more (placed p ent) d := by
  obtain ⟨-, u, -, hfold⟩ := h.contents
  refine ⟨hfold.sorted, ?_, hroom⟩
  rw [h.entName_placed habs]
  exact h.new

theorem Place.way {more : ℕ} (ent : DirEnt) (htree : DirTree stored (Roomy more) t.data)
    (hroom : Roomy more (placed p ent :: d.ents)) :
    Way (links hfun) (fun _ d => Roomy more d.ents) (fun _ => Takes more (placed p ent)) (dirElems p) t := by
  apply way_of_tree (folder_rootEnt _ mode t) (htree.tree hfun) h.found (folder_eq_some h.isDir)
  intro d' hd' _
  rw [(links _).unique _ _ _ hd' h.contents]
  exact h.takes habs ent hroom

end

theorem Place.inserts (h : Place (functional_stored hinj) (rootEnt mode t) p a d)
    (habs : p.head? = some slash) (ent : DirEnt) (w : ω) (htree : DirTree (Stored sha256 s) (Roomy 0) t.data)
    (hname : (base p).length ≤ 65535) (hroom : Roomy 0 (placed p ent :: d.ents)) :
    ∃ r w' s', exec (memStore sha256) (insert room t.data p ent) w s = (.ok r, w', s') ∧
      Made sha256 (inserted (placed p ent)) (dirElems p) t s s' r := by
  have hshort : (placed p ent).entName.length ≤ 65535 := by
    rw [h.entName_placed habs]
    exact hname
  apply insert_performs room p ent hshort t w s hinj
  exact (h.way habs ent htree hroom).mono (.refl _) (fun _ _ h => h) (fun _ _ h => h.room)

theorem Place.roomy_of_bounds (h : Place hfun (rootEnt mode t) p a d)
    (habs : p.head? = some slash) (ent : DirEnt) (htree : DirTree stored (Roomy 0) t.data)
    (hsize : dirSize (base p :: d.ents.map DirEnt.entName) < 2 ^ 63) : Roomy 0 (placed p ent :: d.ents) := by
  cases (htree.tree hfun).of_resolves (folder_rootEnt _ mode t) h.found (folder_eq_some h.isDir) with
  | intro hd hroom _ =>
    rw [(links _).unique _ _ _ hd h.contents] at hroom
    apply h.roomy habs ent
    refine ⟨hroom.named, ?_⟩
    simp only [dirSize, map_cons, sum_cons] at hsize ⊢
    omega

variable (h : Place (functional_stored hinj) (rootEnt mode t) p a d)
include h

theorem Place.inserts_iff (habs : p.head? = some slash) (ent : DirEnt) (w : ω)
    (htree : DirTree (Stored sha256 s) (Roomy 0) t.data) :
    (∃ r, (exec (memStore sha256) (insert room t.data p ent) w s).1 = .ok r) ↔
      (base p).length ≤ 65535 ∧ dirSize (base p :: d.ents.map DirEnt.entName) < 2 ^ 63 := by
  have hname := h.entName_placed habs ent
  constructor
  · intro hr
    obtain ⟨r, hr⟩ := hr
    rw [insert_eq, ← insertAt_truncated] at hr
    have hnot : ¬ Refused (placed p ent :: d.ents) := insertAt_not_refused room hinj (proper_dirElems p)
      (folder_rootEnt _ mode t) h.found (folder_eq_some h.isDir) h.contents hr
    rw [← hname]
    constructor
    · by_contra hlong
      exact hnot (.long mem_cons_self (Nat.not_le.mp hlong))
    · by_contra hlarge
      exact hnot (.large (Nat.not_lt.mp hlarge))
  · intro hbounds
    obtain ⟨r, w', s', hrun, -⟩ :=
      h.inserts room hinj habs ent w htree hbounds.1 (h.roomy_of_bounds habs ent htree hbounds.2)
    exact ⟨r, congrArg Prod.fst hrun⟩

theorem Place.ents_iff (w : ω)
    (hwalk : (exec (memStore sha256) (walk room t.data (dir p)) w s).1 = .ok a) (P : List DirEnt → Prop) :
    (∀ a dot ents, (exec (memStore sha256) (walk room t.data (dir p)) w s).1 = .ok a →
      (exec (memStore sha256) (readDir room a.htree.data) w s).1 = .ok (dot :: ents) → P ents) ↔
      P d.ents := by
  obtain ⟨-, u, hu, hf⟩ := h.contents
  have hread := congrArg Prod.fst (readDir_folder room w hinj hf)
  rw [hu] at hread
  constructor
  · intro hall
    exact hall a _ _ hwalk hread
  · intro hP a' dot ents hwalk' hread'
    rw [hwalk, Except.ok.injEq] at hwalk'
    subst hwalk'
    rw [hread, Except.ok.injEq, cons.injEq] at hread'
    rw [← hread'.2]
    exact hP

end Succeeds

end Insert

section Undo

variable (room : ℕ → ℕ)

/-- A tree of directories that `WriteDir` wrote: entries refer to the trees it returned. -/
inductive Built (sha256 : Bytes → Hash) (stored : Hash → Bytes → Prop) (Q : List DirEnt → Prop) : HTree → Prop
  | intro {t : HTree} {mode : UInt32} {ents : List DirEnt} (hf : Folder stored t mode ents)
      (hw : listingTree sha256 mode ents = .ok t) (hQ : Q ents)
      (hsub : ∀ e ∈ ents, e.isDir = true → Built sha256 stored Q e.htree) : Built sha256 stored Q t

variable {Q : List DirEnt → Prop}

theorem Built.dirTree (h : Built sha256 stored Q t) : DirTree stored Q t.data := by
  induction h with
  | intro hf _ hQ _ ih => exact .intro hf hQ ih

theorem listingTree_mode (mode : UInt32) (ents : List DirEnt) :
    listingTree sha256 (mode ||| modeDir) ents = listingTree sha256 mode ents := by
  have hdot : dotEnt (mode ||| modeDir) = dotEnt mode := dotEnt_entMode mode ⟨0, Hash.zero⟩
  rw [listingTree, listingTree, writeDir, writeDir, hdot]

theorem Built.listing (hfun : Functional stored) (h : Built sha256 stored Q t) :
    ∃ d, (links hfun).contents t d ∧ (Q d.ents ∧ writeListing sha256 d = some t) ∧
      ∀ n e u, (links hfun).find d n = some e → (links hfun).folder e = some u → Built sha256 stored Q u := by
  cases h with
  | @intro _ mode ents hf hw hQ hsub =>
    refine ⟨_, hf.listing hfun rfl, ⟨hQ, ?_⟩, ?_⟩
    · rw [writeListing, listingTree_mode, hw]
      rfl
    · intro n e u hn he
      obtain ⟨hdir, rfl⟩ := isDir_of_folder he
      exact hsub e (mem_of_findEnt hn).1 hdir

/-- `Remove` undoes `Insert`: it returns the entry of the old root. `Insert` succeeds if the
name is not too long and the directory not too large. -/
theorem remove_undoes_insert {p : Bytes} (e : DirEnt) (w : ω)
    (hbuilt : Built sha256 (Stored sha256 s) (Roomy 0) t)
    (hvacant : Vacant (fun q => (exec (memStore sha256) (walk room t.data q) w s).1) p)
    (hinj : Set.InjOn sha256 {c | c ∈ (exec (memStore sha256) (insert room t.data p e >>=
      fun r => remove room r.htree.data p) w s).2.2}) :
    ((∃ r, (exec (memStore sha256) (insert room t.data p e) w s).1 = .ok r) ↔
      (base p).length ≤ 65535 ∧ ∀ a dot ents,
        (exec (memStore sha256) (walk room t.data (dir p)) w s).1 = .ok a →
        (exec (memStore sha256) (readDir room a.htree.data) w s).1 = .ok (dot :: ents) →
        dirSize (base p :: ents.map DirEnt.entName) < 2 ^ 63) ∧
    ∀ r dot ents, (exec (memStore sha256) (insert room t.data p e) w s).1 = .ok r →
      (exec (memStore sha256) (readDir room t.data) w s).1 = .ok (dot :: ents) →
      (exec (memStore sha256) (insert room t.data p e >>=
        fun r => remove room r.htree.data p) w s).1 = .ok dot := by
  have hinj₀ : Set.InjOn sha256 {c | c ∈ s} := injOn_of_exec (Prod.ext rfl rfl) hinj
  have hthere := hbuilt
  cases hthere with
  | @intro _ mode ents hf _ _ _ =>
    obtain ⟨a, d, hwalk, hplace⟩ := hvacant.place room hinj₀ hf hbuilt.dirTree
    have habs := hvacant.absolute
    have hname := hplace.entName_placed habs e
    constructor
    · rw [hplace.inserts_iff room hinj₀ habs e w hbuilt.dirTree, hplace.ents_iff room hinj₀ w hwalk]
    · intro r dot ents' hr hread
      rw [readDir_folder room w hinj₀ hf, Except.ok.injEq, cons.injEq] at hread
      rw [← hread.1]
      have hbounds := (hplace.inserts_iff room hinj₀ habs e w hbuilt.dirTree).mp ⟨r, hr⟩
      have hroom := hplace.roomy_of_bounds habs e hbuilt.dirTree hbounds.2
      obtain ⟨r₁, w₁, s₁, hrun₁, hmade₁⟩ := hplace.inserts room hinj₀ habs e w hbuilt.dirTree hbounds.1 hroom
      rw [exec_bind_ok _ hrun₁] at hinj ⊢
      have hinj₁ : Set.InjOn sha256 {c | c ∈ s₁} := injOn_of_exec (Prod.ext rfl rfl) hinj
      have hext₁ := links_extends (functional_stored hinj₀) (functional_stored hinj₁)
        (stored_grows sha256 hmade₁.grows)
      -- the new entry is found in the new directory
      have hway₁ : Way (links (functional_stored hinj₁)) (fun _ d => Roomy 0 d.ents)
          (fun _ d => Roomy 0 d.ents ∧ ∃ e, findEnt d.ents (base p) = some e) (dirElems p) r₁.htree := by
        have hways := (hplace.way habs e hbuilt.dirTree hroom).mono hext₁ (fun _ _ h => h) (fun _ _ h => h)
        apply way_inserted (hmade₁.rewritten hinj₁) hways _ _ hways
        · intro hpre
          have hlen := hpre.length_le
          simp at hlen
        · intro d₁ d₁' hP hd₁'
          rcases hd₁' with ⟨hne, -⟩ | ⟨-, hF, rfl⟩ | ⟨hne, -⟩
          · exact absurd rfl hne
          · refine ⟨hF.roomy, placed p e, ?_⟩
            rw [← hname]
            exact findEnt_inserted hF.sorted hF.new
          · exact absurd rfl hne
      obtain ⟨r₂, w₂, s₂, hrun₂, hmade₂⟩ :=
        remove_performs room hplace.split r₁.htree w₁ s₁ hinj₁ hway₁
      rw [hrun₂] at hinj ⊢
      have hext₂ := links_extends (functional_stored hinj₁) (functional_stored hinj)
        (stored_grows sha256 hmade₂.grows)
      have hway : Way (links (functional_stored hinj₀)) (fun u d => writeListing sha256 d = some u)
          (fun u d => Takes 0 (placed p e) d ∧ writeListing sha256 d = some u) (dirElems p) t := by
        apply (way_of_invariant (fun u hu => Built.listing _ hu) (folder_rootEnt _ mode t) hbuilt hplace.found
          (folder_eq_some hplace.isDir) _).mono (.refl _) (fun _ _ h => h.2) (fun _ _ h => h)
        intro d' hd' hQ
        rw [(links _).unique _ _ _ hd' hplace.contents] at hQ ⊢
        exact ⟨hplace.takes habs e hroom, hQ.2⟩
      have hback : ∀ (_ : HTree) d, Takes 0 (placed p e) d → removed (base p) (inserted (placed p e) d) = d := by
        intro u d' htakes
        rw [← hname]
        exact removed_inserted htakes.sorted htakes.new
      have hsame : r₂.htree = t := Rewritten.undo (links_lawful (functional_stored hinj)) hback
        ((hway.mono hext₁ (fun _ _ h => h) (fun _ _ h => h)).mono hext₂ (fun _ _ h => h) (fun _ _ h => h))
        ((hmade₁.rewritten hinj₁).mono hext₂) (hmade₂.rewritten hinj)
      obtain ⟨-, ents₁, hf₁⟩ := hmade₁.newRoot hinj₀ hf rfl
      obtain ⟨hroot, -⟩ := hmade₂.newRoot hinj₁ hf₁ rfl
      rw [hroot, hsame]

theorem built_nested : Built sumHash (Stored sumHash nestedStore) (Roomy 0) ⟨0, nestedRoot⟩ := by
  refine .intro folder_nested (by decide +kernel) ⟨⟨by decide, by decide⟩, by decide⟩ ?_
  intro e he hdir
  rcases mem_pair.mp he with rfl | rfl
  · refine .intro folder_nested_sub (by decide +kernel) ⟨⟨by decide, by decide⟩, by decide⟩ fun e he hdir => ?_
    rw [mem_singleton.mp he] at hdir
    cases hdir
  · cases hdir

theorem vacant_nested {p : Bytes} {a : DirEnt} (habs : p.head? = some slash) (hclean : clean p = p)
    (hp : ((exec (memStore sumHash) (walk id nestedRoot p) () nestedStore).1.isOk) = false)
    (hdir : (exec (memStore sumHash) (walk id nestedRoot (dir p)) () nestedStore).1 = .ok a) (ha : a.isDir = true) :
    Vacant (fun q => (exec (memStore sumHash) (walk id nestedRoot q) () nestedStore).1) p := by
  refine ⟨habs, hclean, ?_, a, hdir, ha⟩
  intro e he
  rw [he] at hp
  cases hp

theorem vacant_da : Vacant (fun q => (exec (memStore sumHash) (walk id nestedRoot q) () nestedStore).1) (ascii "/d/a") :=
  vacant_nested (a := folderEnt (ascii "d") [file (ascii "f")]) (by decide) (by decide) (by decide +kernel)
    (by decide +kernel) rfl

/-- A file is put into the folder and taken out again. -/
theorem remove_undoes_insert_nested : ∃ dot ents,
    (exec (memStore sumHash) (readDir id nestedRoot) () nestedStore).1 = .ok (dot :: ents) ∧
    (exec (memStore sumHash) (insert id nestedRoot (ascii "/d/a") (file []) >>=
      fun r => remove id r.htree.data (ascii "/d/a")) () nestedStore).1 = .ok dot := by
  have hread := congrArg Prod.fst (readDir_folder id () (injOn_of_list (by decide +kernel)) folder_nested)
  obtain ⟨-, hundo⟩ := remove_undoes_insert id (file []) () built_nested vacant_da
    (injOn_of_list (by decide +kernel))
  have hinsert : (exec (memStore sumHash) (insert id nestedRoot (ascii "/d/a") (file [])) ()
      nestedStore).1.isOk = true := by
    decide +kernel
  cases hr : (exec (memStore sumHash) (insert id nestedRoot (ascii "/d/a") (file [])) ()
      nestedStore).1 with
  | error err =>
    rw [hr] at hinsert
    cases hinsert
  | ok r => exact ⟨_, _, hread, hundo r _ _ hr hread⟩

end Undo

section Commute

variable (room : ℕ → ℕ) {q : Bytes} {b : DirEnt} {d' : Listing}

variable {name : Bytes}

theorem findEnt_eq_none_iff {ents : List DirEnt} : findEnt ents name = none ↔ name ∉ ents.map DirEnt.entName := by
  simp [findEnt, find?_eq_none]

/-- A sorted listing that does not have the name, with room for `more` bytes. -/
structure Lacks (more : ℕ) (name : Bytes) (d : Listing) : Prop where
  sorted : d.ents.Pairwise Before
  new : findEnt d.ents name = none
  room : Roomy more d.ents

theorem Lacks.relink {stored : Hash → Bytes → Prop} {hfun : Functional stored}
    (h : Lacks more name d) (m : Bytes) (u : HTree) : Lacks more name ((links hfun).relink d m u) := by
  refine ⟨pairwise_setTree h.sorted, ?_, h.room.setTree u⟩
  have hnew := h.new
  rw [findEnt_eq_none_iff] at hnew ⊢
  have hnames : ((links hfun).relink d m u).ents.map DirEnt.entName = d.ents.map DirEnt.entName := map_entName_setTree
  rw [hnames]
  exact hnew

theorem Lacks.inserted {ent : DirEnt} (h : Lacks more name d) (hne : name ≠ ent.entName)
    (htakes : Takes more ent d) : Lacks more name (inserted ent d) := by
  refine ⟨pairwise_sortEnts _, ?_, htakes.roomy⟩
  rw [TreeRewrites.inserted, sortEnts_cons h.sorted]
  exact (findEnt_insert_of_ne hne).trans h.new

theorem inserts_twice (e f : DirEnt) (w : ω) (hinj₀ : Set.InjOn sha256 {c | c ∈ s})
    (hinj : Set.InjOn sha256 {c | c ∈ (exec (memStore sha256) (insert room t.data p e >>=
      fun r => insert room r.htree.data q f) w s).2.2})
    (htree : DirTree (Stored sha256 s) (Roomy ((base p).length + 55 + ((base q).length + 55))) t.data)
    (hp : Place (functional_stored hinj₀) (rootEnt mode t) p a d)
    (hq : Place (functional_stored hinj₀) (rootEnt mode t) q b d')
    (habsp : p.head? = some slash) (habsq : q.head? = some slash) (hpname : (base p).length ≤ 65535)
    (hqname : (base q).length ≤ 65535) (hout : ¬ elems p <+: elems q) :
    ∃ r₁ s₁ r₂ w₂ s₂, exec (memStore sha256) (insert room t.data p e >>=
        fun r => insert room r.htree.data q f) w s = (.ok r₂, w₂, s₂) ∧
      Set.InjOn sha256 {c | c ∈ s₁} ∧
      Made sha256 (inserted (placed p e)) (dirElems p) t s s₁ r₁ ∧
      Made sha256 (inserted (placed q f)) (dirElems q) r₁.htree s₁ s₂ r₂ := by
  have htree₁ : DirTree (Stored sha256 s) (Roomy ((base q).length + 55)) t.data :=
    htree.mono (fun _ _ h => h) (fun _ h => h.less (by omega))
  have htree₀ : DirTree (Stored sha256 s) (Roomy 0) t.data :=
    htree.mono (fun _ _ h => h) (fun _ h => h.less (by omega))
  have hroom : Roomy ((base q).length + 55) (placed p e :: d.ents) := by
    apply hp.roomy habsp e
    cases (htree.tree (functional_stored hinj₀)).of_resolves (folder_rootEnt _ mode t) hp.found
      (folder_eq_some hp.isDir) with
    | intro hd hroom _ =>
      rw [(links _).unique _ _ _ hd hp.contents] at hroom
      exact hroom
  obtain ⟨r₁, w₁, s₁, hrun₁, hmade₁⟩ := hp.inserts room hinj₀ habsp e w htree₀ hpname (hroom.less (Nat.zero_le _))
  rw [exec_bind_ok _ hrun₁] at hinj ⊢
  have hinj₁ : Set.InjOn sha256 {c | c ∈ s₁} := injOn_of_exec (Prod.ext rfl rfl) hinj
  have hext₁ := links_extends (functional_stored hinj₀) (functional_stored hinj₁) (stored_grows sha256 hmade₁.grows)
  have hqplaced := hq.entName_placed habsq f
  have hpplaced := hp.entName_placed habsp e
  have hway : Way (links (functional_stored hinj₁)) (fun _ d => Roomy ((base q).length + 55) d.ents)
      (fun _ => Lacks ((base q).length + 55) (base q)) (dirElems q) r₁.htree := by
    apply way_inserted (hmade₁.rewritten hinj₁)
      ((hp.way habsp e htree₁ hroom).mono hext₁ (fun _ _ h => h) (fun _ _ h => h)) (P := Lacks _ (base q))
    · rw [hpplaced, ← hp.split]
      intro hpre
      apply hout
      rw [hq.split]
      exact hpre.trans (prefix_append _ _)
    · intro d₁ d₁' hlacks hd₁'
      rcases hd₁' with ⟨-, rfl⟩ | ⟨hpath, htakes, rfl⟩ | ⟨-, m, u, rfl⟩
      · exact hlacks
      · apply hlacks.inserted _ htakes
        rw [hpplaced]
        intro hsame
        apply hout
        rw [hp.split, hq.split, hpath, hsame]
      · exact hlacks.relink m u
    · apply (way_of_tree (folder_rootEnt _ mode t) (htree₁.tree (functional_stored hinj₀)) hq.found
        (folder_eq_some hq.isDir) _).mono hext₁ (fun _ _ h => h) (fun _ _ h => h)
      intro d₁ hd₁ hroom₁
      rw [(links _).unique _ _ _ hd₁ hq.contents] at hroom₁ ⊢
      obtain ⟨-, u, -, hfold⟩ := hq.contents
      exact ⟨hfold.sorted, hq.new, hroom₁⟩
  have hshort : (placed q f).entName.length ≤ 65535 := by
    rw [hqplaced]
    exact hqname
  obtain ⟨r₂, w₂, s₂, hrun₂, hmade₂⟩ := insert_performs room q f hshort r₁.htree w₁ s₁ hinj₁
    (hway.mono (.refl _) (fun _ _ h => h.less (Nat.zero_le _)) (fun _ d₁ h => by
      apply Roomy.cons
      · rw [hqplaced]
        exact h.room
      · rw [hqplaced]
        exact hq.proper
      · rw [hqplaced]
        exact h.new))
  exact ⟨r₁, s₁, r₂, w₂, s₂, hrun₂, hinj₁, hmade₁, hmade₂⟩

/-- Two entries under different names, neither of which is below the other, are inserted in
both orders with the same result. -/
theorem inserts_commute {root : Hash} (e f : DirEnt) (w : ω)
    (htree : DirTree (Stored sha256 s) (Roomy ((base p).length + 55 + ((base q).length + 55))) root)
    (hp : Vacant (fun x => (exec (memStore sha256) (walk room root x) w s).1) p)
    (hq : Vacant (fun x => (exec (memStore sha256) (walk room root x) w s).1) q)
    (hpname : (base p).length ≤ 65535) (hqname : (base q).length ≤ 65535)
    (hpq : ¬ elems p <+: elems q) (hqp : ¬ elems q <+: elems p)
    (hinj : Set.InjOn sha256 {c | c ∈
      (exec (memStore sha256) (insert room root p e >>=
        fun r => insert room r.htree.data q f) w s).2.2 ++
      (exec (memStore sha256) (insert room root q f >>=
        fun r => insert room r.htree.data p e) w s).2.2}) :
    ∃ r, (exec (memStore sha256) (insert room root p e >>=
        fun r => insert room r.htree.data q f) w s).1 = .ok r ∧
      (exec (memStore sha256) (insert room root q f >>=
        fun r => insert room r.htree.data p e) w s).1 = .ok r := by
  have hthere := htree
  cases hthere with
  | @intro t mode ents hf _ _ =>
    have hinjp := hinj.mono (fun c hc => mem_append_left _ hc)
    have hinjq := hinj.mono (fun c hc => mem_append_right _ hc)
    have hinj₀ : Set.InjOn sha256 {c | c ∈ s} := injOn_of_exec (Prod.ext rfl rfl) hinjp
    obtain ⟨a, d, -, hpplace⟩ := hp.place room hinj₀ hf htree
    obtain ⟨b, d', -, hqplace⟩ := hq.place room hinj₀ hf htree
    have hswap := htree.mono (fun _ _ h => h) (fun _ h => Roomy.less h (Nat.add_comm _ _).le)
    obtain ⟨r₁, s₁, r₁₂, w₁₂, s₁₂, hrun, hinj₁, hmade₁, hmade₁₂⟩ := inserts_twice room e f w hinj₀ hinjp htree
      hpplace hqplace hp.absolute hq.absolute hpname hqname hpq
    obtain ⟨r₂, s₂, r₂₁, w₂₁, s₂₁, hrun', hinj₂, hmade₂, hmade₂₁⟩ := inserts_twice room f e w hinj₀ hinjq hswap
      hqplace hpplace hq.absolute hp.absolute hqname hpname hqp
    rw [hrun, hrun'] at hinj
    rw [hrun, hrun']
    have hsub₁ : ∀ c ∈ s₁, c ∈ s₁₂ := by
      obtain ⟨ws, rfl⟩ := hmade₁₂.grows
      exact fun c hc => mem_append_right ws hc
    have hsub₂ : ∀ c ∈ s₂, c ∈ s₂₁ := by
      obtain ⟨ws, rfl⟩ := hmade₂₁.grows
      exact fun c hc => mem_append_right ws hc
    have hpname' := hpplace.entName_placed hp.absolute e
    have hqname' := hqplace.entName_placed hq.absolute f
    have hsame : r₁₂.htree = r₂₁.htree := by
      apply Rewritten.comm (links_lawful (functional_stored hinj)) (inserted_local _ (placed p e))
        (inserted_local _ (placed q f)) _ _ _
        (hmade₁.rewritten_in (fun c hc => mem_append_left _ (hsub₁ c hc)) hinj)
        (hmade₁₂.rewritten_in (fun c hc => mem_append_left _ hc) hinj)
        (hmade₂.rewritten_in (fun c hc => mem_append_right _ (hsub₂ c hc)) hinj)
        (hmade₂₁.rewritten_in (fun c hc => mem_append_right _ hc) hinj)
      · intro hpath u d hd
        obtain ⟨-, t', -, hfold⟩ := hd
        apply inserted_comm _ hfold.sorted
        rw [hpname', hqname']
        intro hbase
        apply hpq
        rw [hpplace.split, hqplace.split, hpath, hbase]
      · rw [hpname', ← hpplace.split]
        intro hpre
        apply hpq
        rw [hqplace.split]
        exact hpre.trans (prefix_append _ _)
      · rw [hqname', ← hqplace.split]
        intro hpre
        apply hqp
        rw [hpplace.split]
        exact hpre.trans (prefix_append _ _)
    obtain ⟨-, ents₁, hf₁⟩ := hmade₁.newRoot hinj₀ hf rfl
    obtain ⟨hroot, -⟩ := hmade₁₂.newRoot hinj₁ hf₁ rfl
    obtain ⟨-, ents₂, hf₂⟩ := hmade₂.newRoot hinj₀ hf rfl
    obtain ⟨hroot', -⟩ := hmade₂₁.newRoot hinj₂ hf₂ rfl
    refine ⟨r₁₂, rfl, ?_⟩
    rw [hroot, hroot', hsame]

/-- Two files are put into the tree. -/
def insertTwo (p q : Bytes) : StoreM Unit DirEnt :=
  insert id nestedRoot p (file []) >>= fun r => insert id r.htree.data q (file [])

/-- One file goes into the folder, the other beside it. -/
theorem inserts_commute_nested : ∃ r,
    (exec (memStore sumHash) (insertTwo (ascii "/d/a") (ascii "/b")) () nestedStore).1 = .ok r ∧
    (exec (memStore sumHash) (insertTwo (ascii "/b") (ascii "/d/a")) () nestedStore).1 = .ok r := by
  have hvacant := vacant_nested (p := ascii "/b") (a := rootEnt 0 ⟨0, nestedRoot⟩) (by decide) (by decide)
    (by decide +kernel) (by decide +kernel) rfl
  have htree : DirTree (Stored sumHash nestedStore)
      (Roomy ((base (ascii "/d/a")).length + 55 + ((base (ascii "/b")).length + 55))) nestedRoot :=
    dirTree_nested ⟨⟨by decide, by decide⟩, by decide⟩ ⟨⟨by decide, by decide⟩, by decide⟩
  exact inserts_commute id (file []) (file []) () htree vacant_da hvacant (by decide) (by decide) (by decide)
    (by decide) (injOn_of_list (by decide +kernel))

end Commute

end Bpy.TreeHashes
