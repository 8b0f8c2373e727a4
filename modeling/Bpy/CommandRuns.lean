import Bpy.Commands

/-!
# Runs of the commands

A command runs against a server whose answers are arbitrary, and a store that keeps what
is put into it and that other clients may add to. The world remembers the root that the
server answered last, the time that `-when` stood for, and the root that was published
last.
-/
namespace Bpy.CommandRuns
open ByteWords InteractionPrograms ContentStore References Commands Method

/-- A server with states `σ`. Other clients may have stored chunks before an answer. -/
structure Server (σ : Type) where
  answer : (q : CmdRequest) → σ → q.Response
  next : CmdRequest → σ → σ
  others : CmdRequest → σ → List Bytes

structure World (σ : Type) where
  chunks : List Bytes
  server : σ
  /-- the root that was answered last, with what was stored at the time -/
  current : Option (Hash × List Bytes)
  refTime : Option Int64
  published : Option Hash
  deriving DecidableEq

variable {σ ω α β : Type}

/-- The world after an answer, without its effect on what the world remembers. -/
def World.pass (srv : Server σ) (q : CmdRequest) (W : World σ) : World σ :=
  { W with chunks := srv.others q W.server ++ W.chunks, server := srv.next q W.server }

variable (sha256 : Bytes → Hash) (srv : Server σ)

def serve : (q : CmdRequest) → World σ → q.Response × World σ
  | .store _ q, W => ((memStore sha256 q W.chunks).1, { W with chunks := (memStore sha256 q W.chunks).2 })
  | .getRoot, W =>
    let W' := W.pass srv .getRoot
    match srv.answer .getRoot W.server with
    | .ok (some hash, version) =>
      (.ok (some hash, version), { W' with current := some (hash, W'.chunks) })
    | r => (r, W')
  | .casRoot hash version epoch, W =>
    let W' := W.pass srv (.casRoot hash version epoch)
    match srv.answer (.casRoot hash version epoch) W.server with
    | .ok true => (.ok true, { W' with published := some hash })
    | r => (r, W')
  | .parseWhen arg, W =>
    let W' := W.pass srv (.parseWhen arg)
    match srv.answer (.parseWhen arg) W.server with
    | .ok (t, text) => (.ok (t, text), { W' with refTime := some t })
    | r => (r, W')
  | q, W => (srv.answer q W.server, W.pass srv q)

section Calls

variable {sha256 srv} {W W' : World σ} {w w' : ω}

theorem run_inStore (site : Site) (p : Prog StoreRequest StoreRequest.Response α) (W : World σ) :
    (p.relabel (.store site) (fun _ r => r) : Prog CmdRequest CmdRequest.Response α).run (serve sha256 srv) W =
      ((p.run (memStore sha256) W.chunks).1, { W with chunks := (p.run (memStore sha256) W.chunks).2 }) := by
  induction p generalizing W with
  | done a => rfl
  | call q k ih => exact ih _ _

theorem exec_inStore (site : Site) (x : StoreM ω α) (w : ω) (W : World σ) :
    exec (serve sha256 srv) (inStore site x) w W =
      ((exec (memStore sha256) x w W.chunks).1, (exec (memStore sha256) x w W.chunks).2.1,
        { W with chunks := (exec (memStore sha256) x w W.chunks).2.2 }) := by
  simp only [exec, inStore, run_inStore]

theorem inStore_ok {site : Site} {x : StoreM ω α} {a : α}
    (hrun : exec (serve sha256 srv) (inStore site x) w W = (.ok a, w', W')) :
    ∃ s, exec (memStore sha256) x w W.chunks = (.ok a, w', s) ∧ W' = { W with chunks := s } := by
  rw [exec_inStore, Prod.mk.injEq, Prod.mk.injEq] at hrun
  obtain ⟨hres, hw, hW⟩ := hrun
  exact ⟨_, Prod.ext hres (Prod.ext hw rfl), hW.symm⟩

variable {msg : String} {hash : Hash}

theorem orDie_ok {x : CmdM ω α} {a : α} (hrun : exec (serve sha256 srv) (orDie msg x) w W = (.ok a, w', W')) :
    exec (serve sha256 srv) x w W = (.ok a, w', W') := by
  rw [orDie, catchError, exec_bind, exec_bind, exec_attempt] at hrun
  rcases hx : exec (serve sha256 srv) x w W with ⟨r, w₁, W₁⟩
  rw [hx] at hrun
  cases r with
  | ok b => exact hrun
  | error e => cases e <;> simp at hrun

theorem storeRef_ok {ref : Ref} (hrun : exec (serve sha256 srv) (storeRef ref) w W = (.ok hash, w', W')) :
    ∃ s, exec (memStore sha256) (putRef ref) w W.chunks = (.ok hash, w', s) ∧ W' = { W with chunks := s } := by
  obtain ⟨⟨r, wr⟩, w₁, W₁, hstart, hrest⟩ := exec_bind_eq_ok _ hrun
  obtain ⟨u, w₂, W₂, hclose, hret⟩ := exec_bind_eq_ok _ hrest
  obtain ⟨s₁, hstart₁, rfl⟩ := inStore_ok hstart
  obtain ⟨s₂, hclose₁, rfl⟩ := inStore_ok hclose
  rw [exec_ofExcept, Prod.mk.injEq, Prod.mk.injEq] at hret
  obtain ⟨rfl, rfl, rfl⟩ := hret
  refine ⟨s₂, ?_, rfl⟩
  rw [putRef, exec_bind_ok _ hstart₁]
  exact exec_bind_ok _ hclose₁

theorem getRoot_ok {version : Bytes} (hrun : exec (serve sha256 srv) getRoot w W = (.ok (hash, version), w', W')) :
    w' = w ∧ W' = { W.pass srv .getRoot with current := some (hash, (W.pass srv .getRoot).chunks) } := by
  obtain ⟨⟨found, version'⟩, w₁, W₁, hsend, hrest⟩ := exec_bind_eq_ok _ hrun
  have hsend₁ := orDie_ok hsend
  cases found with
  | none => simp at hrest
  | some hash' =>
    cases hrest
    rw [exec_send, serve] at hsend₁
    split at hsend₁
    · cases hsend₁
      exact ⟨rfl, rfl⟩
    · rename_i hnot
      simp only [id, Prod.mk.injEq] at hsend₁
      exact absurd hsend₁.1 (hnot _ _)

theorem casRoot_true {version epoch : Bytes}
    (hrun : exec (serve sha256 srv) (casRoot sha256 msg hash version epoch) w W = (.ok true, w', W')) :
    w' = w ∧ W'.current = W.current ∧ W'.refTime = W.refTime ∧ W'.published = some hash := by
  have hsend := orDie_ok hrun
  rw [exec_send, serve] at hsend
  split at hsend
  · cases hsend
    exact ⟨rfl, rfl, rfl, rfl⟩
  · rename_i hnot
    simp only [id, Prod.mk.injEq] at hsend
    exact absurd hsend.1 hnot

theorem parseWhen_ok {arg text : Bytes} {t : Int64}
    (hrun : exec (serve sha256 srv) (orDie msg (send (.parseWhen arg) id)) w W = (.ok (t, text), w', W')) :
    w' = w ∧ W' = { W.pass srv (.parseWhen arg) with refTime := some t } := by
  have hsend := orDie_ok hrun
  rw [exec_send, serve] at hsend
  split at hsend
  · cases hsend
    exact ⟨rfl, rfl⟩
  · rename_i hnot
    simp only [id, Prod.mk.injEq] at hsend
    exact absurd hsend.1 (hnot _ _)

end Calls

section Grows

theorem pass_grows (q : CmdRequest) (W : World σ) : ∃ ws, (W.pass srv q).chunks = ws ++ W.chunks :=
  ⟨_, rfl⟩

theorem serve_grows (q : CmdRequest) (W : World σ) : ∃ ws, (serve sha256 srv q W).2.chunks = ws ++ W.chunks := by
  cases q with
  | store site q =>
    cases q with
    | put data => exact ⟨[data], rfl⟩
    | get hash => exact ⟨[], rfl⟩
  | getRoot =>
    rw [serve]
    split <;> exact pass_grows srv _ W
  | casRoot hash version epoch =>
    rw [serve]
    split <;> exact pass_grows srv _ W
  | parseWhen arg =>
    rw [serve]
    split <;> exact pass_grows srv _ W
  | _ => exact pass_grows srv _ W

theorem run_serve_grows (p : Prog CmdRequest CmdRequest.Response α) (W : World σ) :
    ∃ ws, (p.run (serve sha256 srv) W).2.chunks = ws ++ W.chunks := by
  induction p generalizing W with
  | done a => exact ⟨[], rfl⟩
  | call q k ih =>
    obtain ⟨ws, hws⟩ := ih (serve sha256 srv q W).1 (serve sha256 srv q W).2
    obtain ⟨ws', hws'⟩ := serve_grows sha256 srv q W
    exact ⟨ws ++ ws', by rw [Prog.run_call, hws, hws', List.append_assoc]⟩

variable {sha256 srv}

theorem exec_serve_grows {x : CmdM ω α} {w w' : ω} {W W' : World σ} {r : Except GoError α}
    (hrun : exec (serve sha256 srv) x w W = (r, w', W')) : ∃ ws, W'.chunks = ws ++ W.chunks := by
  obtain ⟨ws, hws⟩ := run_serve_grows sha256 srv (x w) W
  refine ⟨ws, ?_⟩
  rw [← hws]
  exact congrArg (fun r => r.2.2.chunks) hrun.symm

theorem retry_ok {once : CmdM ω Bool} {rounds : ℕ} {w w' : ω} {W W' : World σ}
    (hrun : exec (serve sha256 srv) (retry once rounds) w W = (.ok (), w', W')) :
    ∃ w₁ W₁, exec (serve sha256 srv) once w₁ W₁ = (.ok true, w', W') := by
  induction rounds generalizing w W with
  | zero => simp [retry] at hrun
  | succ n ih =>
    obtain ⟨ok, w₁, W₁, honce, hrest⟩ := exec_bind_eq_ok _ hrun
    cases ok with
    | true =>
      rw [if_pos rfl, exec_pure, Prod.mk.injEq, Prod.mk.injEq] at hrest
      obtain ⟨-, rfl, rfl⟩ := hrest
      exact ⟨w, W, honce⟩
    | false => exact ih hrest

end Grows

end Bpy.CommandRuns
