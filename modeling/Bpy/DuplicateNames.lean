import Bpy.HostBackup

/-!
# Which duplicate names `WriteDir` refuses

`WriteDir` compares the names of neighbours in the sorted directory, and folders are
sorted before files. Two folders or two files with one name become neighbours. A folder
and a file with one name do so only if no other entry comes between them.
-/
namespace Bpy.DuplicateNames
open ByteWords InteractionPrograms ContentStore Directories DirTrees TreeInsert HostBackup
open List Method

section Neighbours

variable {l : List DirEnt} {a b : DirEnt}

/-- No entry is sorted between the two. -/
def Touch (l : List DirEnt) (a b : DirEnt) : Prop := ∀ c ∈ l, Before c a ∨ Before b c

theorem before_refl (a : DirEnt) : Before a a := by
  rw [Before, less_eq_false_iff]
  exact Or.inr ⟨rfl, List.le_refl _⟩

theorem same_of_before (hab : Before a b) (hba : Before b a) : a.isDir = b.isDir ∧ a.entName = b.entName := by
  rw [Before, less_eq_false_iff] at hab hba
  rcases hab with ⟨ha, hb⟩ | ⟨hkind, hle⟩
  · rcases hba with ⟨hb', -⟩ | ⟨hkind, -⟩
    · simp [hb] at hb'
    · simp [ha, hb] at hkind
  · rcases hba with ⟨hb, ha⟩ | ⟨-, hle'⟩
    · simp [ha, hb] at hkind
    · exact ⟨hkind, List.le_antisymm hle hle'⟩

theorem checkNames_eq_ok_iff : checkNames l = .ok () ↔ ∀ p a b q, l = p ++ a :: b :: q →
    a.entName ≠ ascii "." ∧ a.entName ≠ b.entName := by
  induction l with
  | nil => simp [checkNames]
  | cons c l ih =>
    cases l with
    | nil =>
      constructor
      · intro _ p a b q hl
        have hlen := congrArg length hl
        simp only [length_append, length_cons, length_nil] at hlen
        omega
      · intro _
        rfl
    | cons d l =>
      rw [checkNames]
      constructor
      · intro h p a b q hl
        split at h
        · simp at h
        · split at h
          · simp at h
          · rename_i hdot hname
            cases p with
            | nil =>
              simp only [nil_append, List.cons.injEq] at hl
              obtain ⟨rfl, rfl, -⟩ := hl
              exact ⟨hdot, hname⟩
            | cons c' p =>
              simp only [cons_append, List.cons.injEq] at hl
              exact ih.mp h p a b q hl.2
      · intro h
        have hfirst := h [] c d l rfl
        rw [if_neg hfirst.1, if_neg hfirst.2]
        apply ih.mpr
        intro p a b q hl
        exact h (c :: p) a b q (by rw [hl, cons_append])

theorem before_of_split {p q : List DirEnt} {c : DirEnt} (hs : (p ++ a :: q).Pairwise Before)
    (hc : c ∈ p ++ a :: q) : Before c a ∨ c ∈ q := by
  rw [pairwise_append] at hs
  rcases mem_append.mp hc with hc | hc
  · exact Or.inl (hs.2.2 c hc a mem_cons_self)
  · rcases mem_cons.mp hc with rfl | hc
    · exact Or.inl (before_refl c)
    · exact Or.inr hc

theorem touch_of_split {p q : List DirEnt} (hs : (p ++ a :: b :: q).Pairwise Before) :
    Touch (p ++ a :: b :: q) a b := by
  intro c hc
  rcases before_of_split hs hc with hca | hc
  · exact Or.inl hca
  · right
    rcases mem_cons.mp hc with rfl | hc
    · exact before_refl c
    · exact rel_of_pairwise_cons (pairwise_append.mp hs).2.1.of_cons hc

/-- What makes the loop over the neighbours fail. -/
inductive BadNames (l : List DirEnt) : Prop
  | sameKind (h : ¬ l.Pairwise Apart)
  | dot {a b : DirEnt} (ha : a ∈ l) (hb : b ∈ l) (hdot : a.entName = ascii ".") (hless : less a b = true)
  | mixed {a b : DirEnt} (ha : a ∈ l) (hb : b ∈ l) (hdir : a.isDir = true) (hfile : b.isDir = false)
      (hname : a.entName = b.entName) (htouch : Touch l a b)

theorem checkNames_of_good (hs : l.Pairwise Before) (hgood : ¬ BadNames l) : checkNames l = .ok () := by
  rw [checkNames_eq_ok_iff]
  rintro p a b q rfl
  have hab : Before a b := rel_of_pairwise_cons (pairwise_append.mp hs).2.1 mem_cons_self
  have hapart : (p ++ a :: b :: q).Pairwise Apart := by
    by_contra h
    exact hgood (.sameKind h)
  have hapart' := rel_of_pairwise_cons (pairwise_append.mp hapart).2.1 mem_cons_self
  constructor
  · intro hdot
    have hless : less a b = true := by
      by_contra hba
      rw [Bool.not_eq_true] at hba
      obtain ⟨hkind, hname⟩ := same_of_before hab hba
      exact hapart' hkind hname
    exact hgood (.dot (by simp) (by simp) hdot hless)
  · intro hname
    rcases less_eq_false_iff.mp hab with ⟨hdir, hfile⟩ | ⟨hkind, -⟩
    · exact hgood (.mixed (by simp) (by simp) hdir hfile hname (touch_of_split hs))
    · exact hapart' hkind hname

theorem good_of_checkNames (hs : l.Pairwise Before) (h : checkNames l = .ok ()) : ¬ BadNames l := by
  intro hbad
  cases hbad with
  | sameKind hapart => exact hapart (pairwise_apart hs h)
  | @dot a b ha hb hdot hless =>
    obtain ⟨p, q, rfl⟩ := append_of_mem ha
    rcases before_of_split hs hb with hba | hb
    · rw [Before, hless] at hba
      cases hba
    · cases q with
      | nil => simp at hb
      | cons c q => exact (checkNames_eq_ok_iff.mp h p a c q rfl).1 hdot
  | @mixed a b ha hb hdir hfile hname htouch =>
    obtain ⟨p, q, rfl⟩ := append_of_mem ha
    rcases before_of_split hs hb with hba | hb
    · rcases less_eq_false_iff.mp hba with ⟨hb', -⟩ | ⟨hkind, -⟩
      · simp [hfile] at hb'
      · simp [hdir, hfile] at hkind
    · cases q with
      | nil => simp at hb
      | cons c q =>
        -- the neighbour of the folder is the file, or has its kind and name
        have hac : a.entName ≠ c.entName := (checkNames_eq_ok_iff.mp h p a c q rfl).2
        have hsorted := (pairwise_append.mp hs).2.1
        rcases htouch c (by simp) with hca | hbc
        · exact hac (same_of_before (rel_of_pairwise_cons hsorted mem_cons_self) hca).2
        · rcases mem_cons.mp hb with rfl | hb
          · exact hac hname
          · have hcb := rel_of_pairwise_cons hsorted.of_cons hb
            exact hac (hname.trans (same_of_before hbc hcb).2)

theorem apart_symm (h : Apart a b) : Apart b a := fun hkind hname => h hkind.symm hname.symm

theorem BadNames.perm {l' : List DirEnt} (hperm : l.Perm l') (h : BadNames l) : BadNames l' := by
  cases h with
  | sameKind h => exact .sameKind (fun h' => h ((hperm.pairwise_iff apart_symm).mpr h'))
  | dot ha hb hdot hless => exact .dot (hperm.mem_iff.mp ha) (hperm.mem_iff.mp hb) hdot hless
  | mixed ha hb hdir hfile hname htouch =>
    exact .mixed (hperm.mem_iff.mp ha) (hperm.mem_iff.mp hb) hdir hfile hname
      (fun c hc => htouch c (hperm.mem_iff.mpr hc))

end Neighbours

section WriteDir

variable {indir : List DirEnt} {mode : UInt32}

/-- What makes `WriteDir` fail with a store that works. -/
inductive Refused (indir : List DirEnt) : Prop
  | names (h : BadNames indir)
  | long {e : DirEnt} (he : e ∈ indir) (hlen : 65535 < e.entName.length)
  | large (h : 2 ^ 63 ≤ dirSize (indir.map DirEnt.entName))

theorem perm_sortEnts (indir : List DirEnt) : (sortEnts indir).Perm indir := perm_insertionSort _ _

theorem length_directory (indir : List DirEnt) (mode : UInt32) :
    (encodeEnts (dotEnt mode :: sortEnts indir)).length = dirSize (indir.map DirEnt.entName) := by
  rw [length_encodeEnts, map_cons, map_cons, sum_cons,
    (((perm_sortEnts indir).map DirEnt.entName).map (fun n => n.length + 55)).sum_eq]
  rfl

theorem not_refused {σ ω : Type} {hd : Handler σ} {w : ω} {s : σ} {r : DirEnt}
    (h : (exec hd (writeDir indir mode) w s).1 = .ok r) : ¬ Refused indir := by
  simp only [writeDir, exec_bind, exec_ofExcept] at h
  cases hnames : checkNames (sortEnts indir) with
  | error e => simp [hnames] at h
  | ok u =>
    cases hsize : checkSize (encodeEnts (dotEnt mode :: sortEnts indir)) with
    | error e => simp [hnames, hsize] at h
    | ok u =>
      cases hlens : checkLengths (dotEnt mode :: sortEnts indir) with
      | error e => simp [hnames, hsize, hlens] at h
      | ok u =>
        intro hrefused
        cases hrefused with
        | names hbad =>
          exact good_of_checkNames (pairwise_sortEnts indir) hnames (hbad.perm (perm_sortEnts indir).symm)
        | long he hlen =>
          have hshort := checkLengths_ok hlens _ (mem_cons_of_mem _ (mem_sortEnts.mpr he))
          omega
        | large hlarge =>
          rw [checkSize, length_directory] at hsize
          split at hsize
          · omega
          · simp at hsize

theorem written_of_not_refused {ω : Type} (sha256 : Bytes → Hash) (mode : UInt32) (w : ω) (s : List Bytes)
    (h : ¬ Refused indir) : ∃ r, (exec (memStore sha256) (writeDir indir mode) w s).1 = .ok r := by
  have hnames : checkNames (sortEnts indir) = .ok () := by
    apply checkNames_of_good (pairwise_sortEnts indir)
    exact fun hbad => h (.names (hbad.perm (perm_sortEnts indir)))
  have hbytes : (encodeEnts (dotEnt mode :: sortEnts indir)).length < 2 ^ 63 := by
    rw [length_directory]
    by_contra hlarge
    exact h (.large (Nat.not_lt.mp hlarge))
  have hlens : checkLengths (dotEnt mode :: sortEnts indir) = .ok () := by
    apply checkLengths_short
    intro e he
    rcases mem_cons.mp he with rfl | he
    · exact (dotEnt_encodable mode).name
    · by_contra hlen
      exact h (.long (mem_sortEnts.mp he) (Nat.not_le.mp hlen))
  have hsize : checkSize (encodeEnts (dotEnt mode :: sortEnts indir)) = .ok () := if_pos hbytes
  obtain ⟨t, written, hrun, -⟩ := writeEncoded_spec sha256 s w (Nat.lt_trans hbytes (by decide))
  refine ⟨{ dotEnt mode with htree := t }, ?_⟩
  simp [writeDir, exec_bind, hnames, hsize, hlens, hrun]

theorem nodup_of_apart (hapart : indir.Pairwise Apart)
    (hmixed : ∀ a ∈ indir, ∀ b ∈ indir, a.isDir = true → b.isDir = false → a.entName ≠ b.entName) :
    (indir.map DirEnt.entName).Nodup := by
  rw [List.Nodup, pairwise_map]
  refine hapart.imp_of_mem (fun {a b} ha hb hab hname => ?_)
  cases hka : a.isDir with
  | true =>
    cases hkb : b.isDir with
    | true => exact hab (hka.trans hkb.symm) hname
    | false => exact hmixed a ha b hb hka hkb hname
  | false =>
    cases hkb : b.isDir with
    | true => exact hmixed b hb a ha hkb hka hname.symm
    | false => exact hab (hka.trans hkb.symm) hname

/-- `WriteDir` writes only directories with distinct names if no file has the name of a folder,
or if it refuses the directory for one of the names, the length of a name or its size. -/
theorem writeDir_distinct_iff (indir : List DirEnt) (mode : UInt32) :
    (∀ (σ ω : Type) (hd : Handler σ) (w : ω) (s : σ) (r : DirEnt),
      (Method.exec hd (writeDir indir mode) w s).1 = .ok r → (indir.map DirEnt.entName).Nodup) ↔
    (∀ a ∈ indir, ∀ b ∈ indir, a.isDir = true → b.isDir = false → a.entName ≠ b.entName) ∨
      Refused indir := by
  constructor
  · intro h
    by_cases hrefused : Refused indir
    · exact Or.inr hrefused
    · obtain ⟨r, hr⟩ := written_of_not_refused Hash.copy mode () [] hrefused
      have hnodup := h _ _ _ _ _ _ hr
      left
      intro a ha b hb hdir hfile hname
      have hab := List.inj_on_of_nodup_map hnodup ha hb hname
      simp [hab, hfile] at hdir
  · intro h σ ω hd w s r hr
    have hgood := not_refused hr
    rcases h with hmixed | hrefused
    · apply nodup_of_apart _ hmixed
      by_contra hapart
      exact hgood (.names (.sameKind hapart))
    · exact absurd hrefused hgood

/-- A folder and a file with one name, and a file whose name is sorted before. -/
def twiceX : List DirEnt :=
  [⟨ascii "x", 0, 0, modeDir, ⟨0, Hash.zero⟩⟩, ⟨ascii "x", 0, 0, 420, ⟨0, Hash.zero⟩⟩,
    ⟨ascii "a", 0, 0, 420, ⟨0, Hash.zero⟩⟩]

theorem writeDir_twiceX :
    (∃ r, (Method.exec (memStore Hash.copy) (writeDir twiceX 0) () []).1 = .ok r) ∧
      ¬ (twiceX.map DirEnt.entName).Nodup := by
  constructor
  · have hrun : (Method.exec (memStore Hash.copy) (writeDir twiceX 0) () []).1.isOk = true := by
      decide +kernel
    cases hr : (Method.exec (memStore Hash.copy) (writeDir twiceX 0) () []).1 with
    | error e =>
      rw [hr] at hrun
      cases hrun
    | ok r => exact ⟨r, rfl⟩
  · decide

end WriteDir

end Bpy.DuplicateNames
