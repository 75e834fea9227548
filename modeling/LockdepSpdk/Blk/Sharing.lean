import LockdepSpdk.Blk.Local
import LockdepSpdk.Blk.Roundtrip

/-!
# Threads that share the device

Threads whose calls name ranges of their own: where a run ends does not depend on how
their steps interleave, each thread sees what it would see alone, and its calls return
among the others as they return alone.
-/

namespace LockdepSpdk.Blk

set_option autoImplicit false

open Function ByteRange Interleaving Transition

/-- A step of a thread on the shared bytes; those in its own state are not looked at. -/
def Alone (cfg : Config) (r : Region) (a : Sys × (Place → UInt8)) (l : Label)
    (b : Sys × (Place → UInt8)) : Prop :=
  l.Inside cfg r ∧ ∃ u, l.exec cfg (a.1.over a.2) = .ok u ∧ b = (u.over a.1.store, u.store)

/-- Threads on one device; while thread `t` is in a call, it makes no other. -/
def Busy {T : Type} (cfg : Config) (r : T → Region) (t u : T) (a : Sys × (Place → UInt8)) (l : Label)
    (b : Sys × (Place → UInt8)) : Prop :=
  Alone cfg (r u) a l b ∧ (u = t → a.1.pc ≠ .idle)

/-- No thread writes what another one uses. -/
def NoConflict {T : Type} (r : T → Region) : Prop :=
  ∀ t u, t ≠ u → ∀ x, (r u).writes x → ¬ (r t).uses x

section
variable {cfg : Config} {r : Region} {s : Sys}

theorem Sys.Inside.over (h : s.Inside cfg r) (m : Place → UInt8) : (s.over m).Inside cfg r :=
  h.of_same rfl rfl

theorem Follows.of_ok {u : Sys} {y : Except Fault Sys} (h : Follows r s (.ok u) y) :
    (∀ x, ¬ r.writes x → u.store x = s.store x) ∧
      ∃ n, y = .ok (u.over n) ∧ Agree r.uses u.store n := by
  cases h with
  | ok hframe hagree => exact ⟨hframe, _, rfl, hagree⟩

theorem alone_confined (hcfg : cfg.Whole) (r : Region) :
    Confined (Sys.Inside cfg r) r.uses r.writes (Alone cfg r) where
  keeps := by
    rintro s m l s' m' hs ⟨hl, u, hu, heq⟩
    obtain ⟨rfl, rfl⟩ := Prod.mk.inj heq
    exact (Label.exec_inside hcfg (hs.over m) hl hu).over _
  frame := by
    rintro s m l s' m' hs ⟨hl, u, hu, heq⟩
    obtain ⟨rfl, rfl⟩ := Prod.mk.inj heq
    have hfollows := Label.exec_follows (hs.over m) hl (Agree.refl (s.over m).store)
    rw [hu] at hfollows
    obtain ⟨hframe, -⟩ := hfollows.of_ok
    intro x hx
    rw [hframe x hx, Sys.store_over]
  blind := by
    rintro s m l s' m' n hs ⟨hl, u, hu, heq⟩ hn
    obtain ⟨rfl, rfl⟩ := Prod.mk.inj heq
    have hn' : Agree r.uses (s.over m).store n := by
      rw [Sys.store_over]
      exact hn
    have hfollows := Label.exec_follows (hs.over m) hl hn'
    rw [hu] at hfollows
    obtain ⟨-, n', hn', hagree⟩ := hfollows.of_ok
    exact ⟨n', ⟨hl, u.over n', hn', by rw [Sys.over_over, Sys.store_over]⟩, hagree⟩

end

section
variable {T : Type} {cfg : Config} {r : T → Region}

theorem alone_separate (hcfg : cfg.Whole) (hr : NoConflict r) :
    Separate (fun t => Sys.Inside cfg (r t)) (fun t => (r t).uses) (fun t => (r t).writes)
      (fun t => Alone cfg (r t)) where
  confined := fun t => alone_confined hcfg (r t)
  writes_uses := fun t => (r t).writes_uses
  apart := hr

theorem busy_separate (hcfg : cfg.Whole) (hr : NoConflict r) (t : T) :
    Separate (fun t => Sys.Inside cfg (r t)) (fun t => (r t).uses) (fun t => (r t).writes)
      (Busy cfg r t) where
  confined := fun u =>
    { keeps := fun hs hstep => (alone_confined hcfg (r u)).keeps hs hstep.1
      frame := fun hs hstep => (alone_confined hcfg (r u)).frame hs hstep.1
      blind := by
        intro s m l s' m' n hs hstep hn
        obtain ⟨n', hn', hagree⟩ := (alone_confined hcfg (r u)).blind n hs hstep.1 hn
        exact ⟨n', ⟨hn', hstep.2⟩, hagree⟩ }
  writes_uses := fun u => (r u).writes_uses
  apart := hr

theorem Alone.step {q : Region} {a b : Sys × (Place → UInt8)} {l : Label} (h : Alone cfg q a l b) :
    Step cfg (a.1.over a.2) l (b.1.over b.2) := by
  obtain ⟨-, u, hu, rfl⟩ := h
  unfold Step
  rw [Sys.over_over, Sys.over_store]
  exact hu

variable [DecidableEq T]

abbrev SharedRun (cfg : Config) (r : T → Region) :=
  Run (World.Step (V := UInt8) fun t => Alone cfg (r t))

/-- Every schedule in which each thread takes the same steps in the same order ends in the same
state. -/
theorem schedules_agree (hcfg : cfg.Whole) (hr : NoConflict r) {w w' : World T Sys Place UInt8}
    (hw : ∀ t, (w.locals t).Inside cfg (r t)) {ls ks : List (T × Label)}
    (hown : ∀ t, own t ls = own t ks) (h : SharedRun cfg r w ls w') : SharedRun cfg r w ks w' :=
  (alone_separate hcfg hr).reorder hw hown h

def half (low : Bool) : Region where
  uses := fun x => decide (x.address < 2 ^ 30) = low
  writes := fun x => decide (x.address < 2 ^ 30) = low
  writes_uses := fun _ h => h

theorem half_noConflict : NoConflict half := by
  intro t u htu x hu ht
  exact htu (ht.symm.trans hu)

theorem started_inside (cfg : Config) (q : Region) : started.Inside cfg q :=
  ⟨fun _ _ h => (by cases h), fun _ h => (by cases h)⟩

def World.stored (w : World Bool Sys Place UInt8) (t : Bool) (a : Nat) (v : UInt8) :
    World Bool Sys Place UInt8 :=
  ⟨update w.locals t (w.locals t),
    ({ (w.locals t).over w.store with mem := update ((w.locals t).over w.store).mem a v }).store⟩

theorem stored_step {cfg : Config} {q : Bool → Region} {w : World Bool Sys Place UInt8} {t : Bool}
    (hidle : (w.locals t).pc = .idle) {a : Nat} (ha : (q t).writes (.mem a)) (v : UInt8) :
    World.Step (fun t => Alone cfg (q t)) w (t, .store a v) (World.stored w t a v) := by
  refine ⟨w.locals t, _, ⟨ha, { (w.locals t).over w.store with
    mem := update ((w.locals t).over w.store).mem a v }, ?_, rfl⟩, rfl⟩
  have hpc : ((w.locals t).over w.store).pc = .idle := hidle
  simp only [Label.exec]
  rw [if_pos hpc]

theorem two_stores :
    SharedRun ⟨4096, 2 ^ 40, 2⟩ half ⟨fun _ => started, started.store⟩
      [(true, .store 5 1), (false, .store (2 ^ 30) 2)]
      (World.stored (World.stored ⟨fun _ => started, started.store⟩ true 5 1) false (2 ^ 30) 2) :=
  .cons (stored_step rfl (by simp [half, Place.address]) 1)
    (.cons (stored_step rfl (by simp [half, Place.address]) 2) (.nil _))

theorem schedules_agree_halves :
    let cfg : Config := ⟨4096, 2 ^ 40, 2⟩
    let w : World Bool Sys Place UInt8 := ⟨fun _ => started, started.store⟩
    SharedRun cfg half w [(false, .store (2 ^ 30) 2), (true, .store 5 1)]
      (World.stored (World.stored w true 5 1) false (2 ^ 30) 2) :=
  schedules_agree ⟨⟨12, rfl⟩, by decide, by decide, by decide⟩ half_noConflict
    (fun u => started_inside _ (half u)) (fun t => by cases t <;> rfl) two_stores

/-- What a thread does in a run, it can do alone, and the bytes of its region are the same at the
end. -/
theorem thread_alone (hcfg : cfg.Whole) (hr : NoConflict r) {w w' : World T Sys Place UInt8}
    (hw : ∀ t, (w.locals t).Inside cfg (r t)) {ls : List (T × Label)}
    (h : SharedRun cfg r w ls w') (t : T) :
    ∃ m, Run (Step cfg) ((w.locals t).over w.store) (own t ls) ((w'.locals t).over m) ∧
      ∀ x, (r t).uses x → m x = w'.store x := by
  obtain ⟨m, hrun, hagree⟩ := (alone_separate hcfg hr).project hw h t
  exact ⟨m, hrun.map (f := fun a : Sys × (Place → UInt8) => a.1.over a.2)
    (fun _ _ _ hstep => hstep.step), hagree⟩

theorem thread_alone_halves :
    let cfg : Config := ⟨4096, 2 ^ 40, 2⟩
    let w : World Bool Sys Place UInt8 := ⟨fun _ => started, started.store⟩
    let w' := World.stored (World.stored w true 5 1) false (2 ^ 30) 2
    ∃ m, Run (Step cfg) ((w.locals true).over w.store) [.store 5 1] ((w'.locals true).over m) ∧
      ∀ x, (half true).uses x → m x = w'.store x :=
  thread_alone ⟨⟨12, rfl⟩, by decide, by decide, by decide⟩ half_noConflict
    (fun u => started_inside _ (half u)) two_stores true

theorem returns_among (hcfg : cfg.Whole) (hr : NoConflict r) {w : World T Sys Place UInt8}
    (hw : ∀ t, (w.locals t).Inside cfg (r t)) {t : T} {Q : Sys → Prop}
    (h : Returns cfg Q ((w.locals t).over w.store)) :
    Among (Busy cfg r t) (r t).uses t (fun s => s.inflight ≠ []) Label.Delivers
      (fun a => Safe cfg (a.1.over a.2)) (fun s => s.pc = .idle) (fun a => Q (a.1.over a.2)) w := by
  refine (busy_separate hcfg hr t).among hw ?_
  exact Total.comap (f := fun a : Sys × (Place → UInt8) => a.1.over a.2) (s := (w.locals t, w.store))
    h fun a l b hstep => ⟨hstep.2 rfl, hstep.1.step⟩

/-- Whether a call is in danger does not depend on what is outside the thread's region. -/
theorem Safe.over {q : Region} {s : Sys} {m n : Place → UInt8} (h : Safe cfg (s.over m))
    (hs : s.Inside cfg q) (hn : Agree q.uses m n) : Safe cfg (s.over n) := by
  intro hpc
  obtain ⟨⟨u, hu⟩, hfault⟩ := h hpc
  refine ⟨?_, ?_⟩
  · have hfollows := Label.exec_follows (hs.over m) (l := Label.tick) trivial
      (n := n) (by rw [Sys.store_over]; exact hn)
    have htick : Label.exec cfg (s.over m) Label.tick = .ok u := hu
    rw [htick] at hfollows
    obtain ⟨-, n', hn', -⟩ := hfollows.of_ok
    exact ⟨_, hn'⟩
  · intro l e herror
    have inside : l.Inside cfg q → e = .disabled := by
      intro hl
      have hfollows := Label.exec_follows (hs.over n) hl (n := m)
        (by rw [Sys.store_over]; exact hn.symm)
      rw [herror] at hfollows
      generalize hy : l.exec cfg ((s.over n).over m) = y at hfollows
      cases hfollows with
      | error => exact hfault l e hy
    cases l with
    | call c =>
      have hcall : (if (s.over n).pc = .idle then c.exec cfg (s.over n) else .error .disabled) =
          .error e := herror
      rw [if_neg hpc] at hcall
      exact (Except.error.inj hcall).symm
    | store a v =>
      have hstore : (if (s.over n).pc = .idle then
          Except.ok { s.over n with mem := update (s.over n).mem a v }
        else Except.error Fault.disabled) = .error e := herror
      rw [if_neg hpc] at hstore
      exact (Except.error.inj hstore).symm
    | tick => exact inside trivial
    | transfer i => exact inside trivial
    | complete i => exact inside trivial

/-- The call of `t` in progress goes on without a fault, and ends as long as the thread goes on and
SPDK completes its commands. -/
structure CallReturns (cfg : Config) (r : T → Region) (t : T) (w : World T Sys Place UInt8) :
    Prop where
  safe : ∀ ls w', Run (World.Step (Busy cfg r t)) w ls w' →
    Safe cfg ((w'.locals t).over w'.store)
  ends : ∀ run : InfiniteRun (World.Step (Busy cfg r t)) w, Moves run t →
    ¬ ∀ n, ((run.state n).locals t).inflight ≠ [] →
      ∃ m, n ≤ m ∧ (run.label m).1 = t ∧ (run.label m).2.Delivers

theorem Quiet.over {pend : CtxPtr → List TaskPtr} {s : Sys} {m : Place → UInt8}
    (h : Quiet pend (s.over m)) (n : Place → UInt8) : Quiet pend (s.over n) :=
  ⟨h.pending, h.waits, h.locals, h.inflight, h.running, h.nseg, h.pool, h.depth, h.fresh, h.t⟩

/-- A thread starts a call that would return alone. -/
theorem call_among (hcfg : cfg.Whole) (hr : NoConflict r) {w : World T Sys Place UInt8}
    (hw : ∀ u, (w.locals u).Inside cfg (r u)) {t : T} (call : Call) (hcall : call.Inside cfg (r t))
    (hidle : (w.locals t).pc = .idle) {Q : Sys → Prop} {s : Sys}
    (hexec : call.exec cfg ((w.locals t).over w.store) = .ok s) (hreturns : Returns cfg Q s) :
    ∃ w', World.Step (fun u => Alone cfg (r u)) w (t, .call call) w' ∧
      (∀ u, (w'.locals u).Inside cfg (r u)) ∧ CallReturns cfg r t w' ∧
      ∀ ls w'', Run (World.Step (Busy cfg r t)) w' ls w'' → (w''.locals t).pc = .idle →
        (∀ u, (w''.locals u).Inside cfg (r u)) ∧
        ∃ m, (∀ x, (r t).uses x → m x = w''.store x) ∧ Q ((w''.locals t).over m) := by
  have hstep : World.Step (fun u => Alone cfg (r u)) w (t, .call call)
      ⟨update w.locals t (s.over (w.locals t).store), s.store⟩ := by
    refine ⟨_, _, ⟨hcall, s, ?_, rfl⟩, rfl⟩
    have hpc : ((w.locals t).over w.store).pc = .idle := hidle
    simp only [Label.exec]
    rw [if_pos hpc]
    exact hexec
  have hkept := (alone_separate hcfg hr).keeps hw hstep
  have hself : (⟨update w.locals t (s.over (w.locals t).store), s.store⟩ :
      World T Sys Place UInt8).locals t = s.over (w.locals t).store := update_self ..
  have hamong := returns_among hcfg hr (t := t) (Q := Q) hkept (by
    rw [hself, Sys.over_over, Sys.over_store]
    exact hreturns)
  have hinside : ∀ ls w'', Run (World.Step (Busy cfg r t)) _ ls w'' →
      ∀ u, (w''.locals u).Inside cfg (r u) := fun ls w'' hrun =>
    hrun.invariant (I := World.Kept fun u => Sys.Inside cfg (r u))
      (fun _ _ _ hs hst => (busy_separate hcfg hr t).keeps hs hst) hkept
  refine ⟨_, hstep, hkept, ⟨fun ls w'' hrun => ?_, hamong.ends⟩,
    fun ls w'' hrun hdone => ⟨hinside ls w'' hrun, ?_⟩⟩
  · obtain ⟨m, hagree, hsafe⟩ := hamong.safe ls w'' hrun
    exact hsafe.over (hinside ls w'' hrun t) hagree
  · obtain ⟨m, hagree, hQ⟩ := hamong.stop ls w'' hrun hdone
    exact ⟨m, hagree, hQ⟩

/-- What a thread writes it reads back, whatever other threads do to other ranges at the same
time, and both calls return. -/
theorem roundtrip_among_threads (hcfg : cfg.Whole) (hr : NoConflict r)
    {w : World T Sys Place UInt8} (hw : ∀ u, (w.locals u).Inside cfg (r u)) {t : T}
    (hs : Reached cfg ((w.locals t).over w.store)) (hidle : (w.locals t).pc = .idle)
    (hdepth : 0 < cfg.maxQueueDepth) {off len buf buf2 : Nat} (hoff : cfg.blockSize ∣ off)
    (hlen : cfg.blockSize ∣ len) (hpos : 0 < len) (hend : off + len ≤ cfg.size)
    (hlt : len < 2 ^ 47) (hdisk : ∀ x, Within off len x → (r t).writes (.disk x))
    (hsrc : ∀ x, Within buf len x → (r t).uses (.mem x))
    (hdst : ∀ x, Within buf2 len x → (r t).writes (.mem x)) :
    ∃ w1, World.Step (fun u => Alone cfg (r u)) w (t, .call (.write off len buf)) w1 ∧
      CallReturns cfg r t w1 ∧
      ∀ ls w2, Run (World.Step (Busy cfg r t)) w1 ls w2 → (w2.locals t).pc = .idle →
        (∀ i, i < len → w2.store (.disk (off + i)) = w.store (.mem (buf + i))) ∧
        ∃ w3, World.Step (fun u => Alone cfg (r u)) w2 (t, .call (.read off len buf2)) w3 ∧
          CallReturns cfg r t w3 ∧
          ∀ ls w4, Run (World.Step (Busy cfg r t)) w3 ls w4 → (w4.locals t).pc = .idle →
            (w4.locals t).ret = 0 ∧
              ∀ i, i < len → w4.store (.mem (buf2 + i)) = w.store (.mem (buf + i)) := by
  have hsplit : splitSize = 131072 := rfl
  have hcount : (len + (splitSize - 1)) / splitSize < 2 ^ 31 := by
    rw [hsplit]
    omega
  have hsize := hcfg.size
  obtain ⟨pend, hquiet, hframe⟩ := hs.quiet hidle
  have hchunks : WriteSplit off len buf (writeChunks off len buf) := writeChunks_spec (by omega)
  obtain ⟨s1, hs1, hwrite⟩ := hquiet.write_returns hidle hframe hcfg.split hdepth hsize hoff hlen
    hpos hend (by rw [hchunks.count]; exact hcount)
  obtain ⟨w1, hw1, -, hends1, hstop1⟩ := call_among hcfg hr hw (.write off len buf)
    ⟨hend, hdisk, hsrc⟩ hidle hs1 hwrite
  refine ⟨w1, hw1, hends1, fun ls w2 hrun hidle2 => ?_⟩
  obtain ⟨hkept2, m, hagree, hreturned⟩ := hstop1 ls w2 hrun hidle2
  have hwritten : ∀ i, i < len → w2.store (.disk (off + i)) = w.store (.mem (buf + i)) := by
    intro i hi
    have hplace : m (.disk (off + i)) = w2.store (.disk (off + i)) :=
      hagree _ ((r t).writes_uses _ (hdisk _ (within_add.mpr hi)))
    have hbytes : m (.disk (off + i)) = blit _ off len (fun i => w.store (.mem (buf + i))) (off + i) :=
      congrFun hreturned.disk (off + i)
    rw [← hplace, hbytes, blit_within _ _ hi]
  refine ⟨hwritten, ?_⟩
  obtain ⟨hquiet2, -⟩ := hreturned.quiet
  obtain ⟨s3, hs3, hread⟩ : ∃ s3, Blk.read cfg ((w2.locals t).over w2.store) off len buf2 = .ok s3 ∧
      Returns cfg (Returned cfg pend ((w2.locals t).over w2.store).disk
        (blit ((w2.locals t).over w2.store).mem buf2 len fun i => w2.store (.disk (off + i)))) s3 :=
    (hquiet2.over w2.store).read_returns hidle2 hcfg.split hdepth hsize hoff hlen hpos hend hcount
  obtain ⟨w3, hw3, -, hends3, hstop3⟩ := call_among hcfg hr hkept2 (.read off len buf2)
    ⟨hend, fun x hx => (r t).writes_uses _ (hdisk x hx), hdst⟩ hidle2 hs3 hread
  refine ⟨w3, hw3, hends3, fun ks w4 hrun4 hidle4 => ?_⟩
  obtain ⟨-, k, hagree4, hreturned4⟩ := hstop3 ks w4 hrun4 hidle4
  refine ⟨hreturned4.ret, fun i hi => ?_⟩
  have hplace : k (.mem (buf2 + i)) = w4.store (.mem (buf2 + i)) :=
    hagree4 _ ((r t).writes_uses _ (hdst _ (within_add.mpr hi)))
  have hbytes : k (.mem (buf2 + i)) =
      blit _ buf2 len (fun i => w2.store (.disk (off + i))) (buf2 + i) :=
    congrFun hreturned4.mem (buf2 + i)
  rw [← hplace, hbytes, blit_within _ _ hi]
  exact hwritten i hi

/-- Two threads, each with a half of the device and of the memory. -/
theorem roundtrip_among_threads_halves :
    let cfg : Config := ⟨4096, 2 ^ 40, 2⟩
    let w : World Bool Sys Place UInt8 := ⟨fun _ => started, started.store⟩
    ∃ w1, World.Step (fun u => Alone cfg (half u)) w (true, .call (.write 8192 (2 ^ 24) 7)) w1 ∧
      CallReturns cfg half true w1 ∧
      ∀ ls w2, Run (World.Step (Busy cfg half true)) w1 ls w2 → (w2.locals true).pc = .idle →
        (∀ i, i < 2 ^ 24 → w2.store (.disk (8192 + i)) = w.store (.mem (7 + i))) ∧
        ∃ w3, World.Step (fun u => Alone cfg (half u)) w2
            (true, .call (.read 8192 (2 ^ 24) (2 ^ 25))) w3 ∧
          CallReturns cfg half true w3 ∧
          ∀ ls w4, Run (World.Step (Busy cfg half true)) w3 ls w4 →
            (w4.locals true).pc = .idle → (w4.locals true).ret = 0 ∧
              ∀ i, i < 2 ^ 24 → w4.store (.mem (2 ^ 25 + i)) = w.store (.mem (7 + i)) := by
  have hrange : ∀ a n x, a + n ≤ 2 ^ 30 → Within a n x → decide (x < 2 ^ 30) = true := by
    intro a n x hle hx
    unfold Within at hx
    exact decide_eq_true (by omega)
  have hs : Reached ⟨4096, 2 ^ 40, 2⟩ (started.over started.store) := by
    rw [Sys.over_store]
    exact .start started_initial
  exact roundtrip_among_threads (w := ⟨fun _ => started, started.store⟩) (t := true)
    ⟨⟨12, rfl⟩, by decide, by decide, by decide⟩ half_noConflict
    (fun u => started_inside _ (half u)) hs rfl (by decide) (by decide)
    (by decide) (by decide) (by decide) (by decide)
    (fun x hx => hrange 8192 (2 ^ 24) x (by omega) hx)
    (fun x hx => hrange 7 (2 ^ 24) x (by omega) hx)
    (fun x hx => hrange (2 ^ 25) (2 ^ 24) x (by omega) hx)

end

end LockdepSpdk.Blk
