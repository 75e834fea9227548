import LockdepSpdk.Nvme.Manager

/-!
# Whose request a probe serves

The thread probes with the `trid` it captured when the first call that needed it
created it, for every later context too. A probe serves its own request just if the
request asks for the same argument. Drivers are found and returned correctly anyway:
there is at most one.
-/

namespace LockdepSpdk.Nvme

set_option autoImplicit false

open Function Transition

section Inv
variable {K Trid Ctrlr Ns : Type} {sp : Spdk Trid Ctrlr Ns}

/-- Two arguments of `spdk_nvme_probe` that ask for the same. -/
def SameArg (sp : Spdk Trid Ctrlr Ns) : Option Trid → Option Trid → Prop
  | none, none => True
  | some a, some b => sp.same a b = true
  | _, _ => False

/-- The threads in `try_get` hold `lock`; drivers come from contexts and there is at most one. -/
structure Inv (sp : Spdk Trid Ctrlr Ns) (m : Manager K Trid Ctrlr Ns) : Prop where
  short : m.sharedDriverDatas.length ≤ 1
  locked : ∀ k ctx, m.calls k = some ctx → m.lock = some k
  queued : ∀ k ∈ m.probeQueue, ∃ ctx, m.calls k = some ctx ∧ ctx.done = false
  nodup : m.probeQueue.Nodup
  attached : ∀ k ctx d, m.calls k = some ctx → ctx.driver = some d →
    d ∈ m.sharedDriverDatas ∧ d.isEqual sp ctx.trid = true
  returned : ∀ x ∈ m.returned, x.2 ∈ m.sharedDriverDatas ∧ x.2.isEqual sp x.1 = true

/-- The argument of the thread is that of every context under way. -/
def Served (sp : Spdk Trid Ctrlr Ns) (m : Manager K Trid Ctrlr Ns) : Prop :=
  ∀ captured k ctx, m.dpdkThread = some captured → m.calls k = some ctx →
    SameArg sp (probeArg sp captured) (probeArg sp ctx.trid)

/-- A request that reaches the thread asks for what the captured id asks for. -/
def AsksSame (sp : Spdk Trid Ctrlr Ns) (m : Manager K Trid Ctrlr Ns) : Act K Trid Ctrlr → Prop
  | .tryGet _ trid => (m.sharedDriverDatas.find? fun d => d.isEqual sp trid) = none →
      ∀ captured ∈ m.dpdkThread, SameArg sp (probeArg sp captured) (probeArg sp trid)
  | _ => True

theorem SameArg.refl (sp : Spdk Trid Ctrlr Ns) (arg : Option Trid) : SameArg sp arg arg := by
  cases arg with
  | none => exact trivial
  | some a => exact sp.same_refl a

theorem registerCtrlr_ok {m m' : Manager K Trid Ctrlr Ns} {trid : Trid} {c : Ctrlr}
    {d : Driver Trid Ctrlr Ns} (h : registerCtrlr sp m trid c = .ok (m', d)) :
    m.sharedDriverDatas = [] ∧ d.trid = trid ∧ m' = { m with sharedDriverDatas := [d] } := by
  unfold registerCtrlr at h
  split at h
  · cases h
  · split at h
    · cases h
    · split at h
      · cases h
      · split at h
        · next hempty =>
          have hnil := List.isEmpty_iff.mp hempty
          obtain ⟨rfl, rfl⟩ := ok_mk_inj h
          exact ⟨hnil, rfl, by rw [hnil]; rfl⟩
        · cases h

/-- What attaching leaves: the context of the probe may have a new driver, the only one. -/
structure Attaches (sp : Spdk Trid Ctrlr Ns) (m m' : Manager K Trid Ctrlr Ns)
    (ctx ctx' : Context Trid Ctrlr Ns) : Prop where
  lock : m'.lock = m.lock
  thread : m'.dpdkThread = m.dpdkThread
  queue : m'.probeQueue = m.probeQueue
  calls : m'.calls = m.calls
  returned : m'.returned = m.returned
  trid : ctx'.trid = ctx.trid
  drivers : (m'.sharedDriverDatas = m.sharedDriverDatas ∧ ctx'.driver = ctx.driver) ∨
    ∃ d, m.sharedDriverDatas = [] ∧ m'.sharedDriverDatas = [d] ∧ ctx'.driver = some d ∧
      d.isEqual sp ctx.trid = true

theorem attachCb_ok {m m' : Manager K Trid Ctrlr Ns} {ctx ctx' : Context Trid Ctrlr Ns} {c : Ctrlr}
    (h : attachCb sp (m, ctx) c = .ok (m', ctx')) : Attaches sp m m' ctx ctx' := by
  obtain ⟨⟨m1, d⟩, hreg, hrest⟩ := bind_ok h
  obtain ⟨rfl, rfl⟩ := ok_mk_inj hrest
  obtain ⟨hnil, htrid, rfl⟩ := registerCtrlr_ok hreg
  refine ⟨rfl, rfl, rfl, rfl, rfl, rfl, Or.inr ⟨d, hnil, rfl, rfl, ?_⟩⟩
  unfold Driver.isEqual
  rw [htrid]
  exact sp.same_refl ctx.trid

theorem attach_ok {cs : List Ctrlr} {m m' : Manager K Trid Ctrlr Ns}
    {ctx ctx' : Context Trid Ctrlr Ns} (h : cs.foldlM (attachCb sp) (m, ctx) = .ok (m', ctx')) :
    Attaches sp m m' ctx ctx' := by
  induction cs generalizing m ctx with
  | nil =>
    obtain ⟨rfl, rfl⟩ := ok_mk_inj h
    exact ⟨rfl, rfl, rfl, rfl, rfl, rfl, Or.inl ⟨rfl, rfl⟩⟩
  | cons c cs ih =>
    rw [List.foldlM_cons] at h
    obtain ⟨⟨m1, ctx1⟩, hone, hrest⟩ := bind_ok h
    have h1 := attachCb_ok hone
    have h2 := ih hrest
    refine ⟨h2.lock.trans h1.lock, h2.thread.trans h1.thread, h2.queue.trans h1.queue,
      h2.calls.trans h1.calls, h2.returned.trans h1.returned, h2.trid.trans h1.trid, ?_⟩
    rcases h1.drivers with ⟨hd1, hc1⟩ | ⟨d, hnil, hd1, hc1, heq⟩
    · rcases h2.drivers with ⟨hd2, hc2⟩ | ⟨d, hnil, hd2, hc2, heq⟩
      · exact Or.inl ⟨hd2.trans hd1, hc2.trans hc1⟩
      · exact Or.inr ⟨d, hd1.symm.trans hnil, hd2, hc2, h1.trid ▸ heq⟩
    · rcases h2.drivers with ⟨hd2, hc2⟩ | ⟨d', hnil', _⟩
      · exact Or.inr ⟨d, hnil, hd2.trans hd1, hc2.trans hc1, heq⟩
      · rw [hd1] at hnil'
        cases hnil'

theorem nvmeProbe_ok {m m' : Manager K Trid Ctrlr Ns} {ctx ctx' : Context Trid Ctrlr Ns}
    {o : Outcome Trid Ctrlr} (h : nvmeProbe sp m ctx o = .ok (m', ctx')) :
    Attaches sp m m' ctx ctx' := by
  obtain ⟨cs, _, hattach⟩ := bind_ok h
  exact attach_ok hattach

/-- `probe_cb` never meets an id that is not PCI and not the one wanted. -/
theorem probeAll_no_mismatch {want : Trid} {found : List (Trid × Option Ctrlr)}
    (h : ∀ x ∈ found, sp.pcie x.1 = true ∨ sp.same want x.1 = true) (e : Halt) :
    probeAll sp want found ≠ .error e := by
  induction found with
  | nil => nofun
  | cons x rest ih =>
    intro herr
    rcases bind_error herr with hcb | ⟨b, _, hrest⟩
    · unfold probeCb at hcb
      split at hcb
      · cases hcb
      · next hp =>
        have hs := (h x List.mem_cons_self).resolve_left hp
        rw [if_pos hs] at hcb
        cases hcb
    · rcases bind_error hrest with hrest | ⟨cs, _, hok⟩
      · exact ih (fun y hy => h y (List.mem_cons_of_mem x hy)) hrest
      · cases hok

theorem attach_error {cs : List Ctrlr} {x : Manager K Trid Ctrlr Ns × Context Trid Ctrlr Ns}
    {e : Halt} (h : cs.foldlM (attachCb sp) x = .error e) : e = .abort := by
  induction cs generalizing x with
  | nil => cases h
  | cons c cs ih =>
    rw [List.foldlM_cons] at h
    rcases bind_error h with hone | ⟨y, _, hrest⟩
    · rcases bind_error hone with hreg | ⟨y, _, hok⟩
      · unfold registerCtrlr at hreg
        split at hreg
        · exact (Except.error.inj hreg).symm
        · split at hreg
          · exact (Except.error.inj hreg).symm
          · split at hreg
            · exact (Except.error.inj hreg).symm
            · split at hreg
              · cases hreg
              · exact (Except.error.inj hreg).symm
      · cases hok
    · exact ih hrest

theorem map_fst_ok {α β : Type} {x : Except Halt (α × β)} {a : α} (h : x.map Prod.fst = .ok a) :
    ∃ b, x = .ok (a, b) := by
  cases x with
  | error e => cases h
  | ok y => exact ⟨y.2, congrArg Except.ok (Prod.ext (Except.ok.inj h) rfl)⟩

variable [DecidableEq K] {m m' : Manager K Trid Ctrlr Ns} {k : K} {trid : Trid}

theorem tryGet_cases {r : Option (Reply Trid Ctrlr Ns)} (h : tryGet sp m k trid = .ok (m', r)) :
    m.calls k = none ∧ m.lock = none ∧
      ((∃ d, (m.sharedDriverDatas.find? fun d => d.isEqual sp trid) = some d ∧
          m' = { m with returned := (trid, d) :: m.returned } ∧ r = some ⟨0, some d⟩) ∨
        ((m.sharedDriverDatas.find? fun d => d.isEqual sp trid) = none ∧
          m' = { m with
            lock := some k
            dpdkThread := some (m.dpdkThread.getD trid)
            probeQueue := m.probeQueue ++ [k]
            calls := update m.calls k (some ⟨trid, none, false⟩) } ∧ r = none)) := by
  unfold tryGet at h
  split at h
  · cases h
  · next hcalls =>
    split at h
    · cases h
    · next hlock =>
      refine ⟨by simpa using hcalls, by simpa using hlock, ?_⟩
      split at h
      · next d hd =>
        obtain ⟨rfl, rfl⟩ := ok_mk_inj h
        exact Or.inl ⟨d, hd, rfl, rfl⟩
      · next hnone =>
        rw [findFirstBitset_coremask, if_neg (by decide)] at h
        obtain ⟨rfl, rfl⟩ := ok_mk_inj h
        exact Or.inr ⟨hnone, rfl, rfl⟩

theorem serve_cases {o : Outcome Trid Ctrlr} (h : serve sp m o = .ok m') :
    ∃ captured k rest ctx m1 ctx1, m.dpdkThread = some captured ∧ m.probeQueue = k :: rest ∧
      m.calls k = some ctx ∧ Attaches sp { m with probeQueue := rest } m1 ctx ctx1 ∧
      m' = { m1 with calls := update m1.calls k (some { ctx1 with done := true }) } := by
  unfold serve at h
  split at h
  · next captured k rest hthread hqueue =>
    split at h
    · cases h
    · next ctx hctx =>
      obtain ⟨⟨m1, ctx1⟩, hprobe, hrest⟩ := bind_ok h
      dsimp only at hrest
      split at hrest
      · cases hrest
      · obtain rfl := Except.ok.inj hrest
        exact ⟨captured, k, rest, ctx, m1, ctx1, hthread, hqueue, hctx, nvmeProbe_ok hprobe, rfl⟩
  · cases h

theorem finish_cases {r : Reply Trid Ctrlr Ns} (h : finish m k = .ok (m', r)) :
    ∃ ctx, m.calls k = some ctx ∧ ctx.done = true ∧
      ((ctx.driver = none ∧ m' = { m with lock := none, calls := update m.calls k none } ∧
          r = ⟨-1, none⟩) ∨
        ∃ d, ctx.driver = some d ∧ r = ⟨0, some d⟩ ∧ m' = { m with
          lock := none
          calls := update m.calls k none
          returned := (ctx.trid, d) :: m.returned }) := by
  unfold finish at h
  split at h
  · cases h
  · next ctx hctx =>
    split at h
    · next hdone =>
      refine ⟨ctx, hctx, hdone, ?_⟩
      dsimp only at h
      split at h
      · next hnone =>
        obtain ⟨rfl, rfl⟩ := ok_mk_inj h
        exact Or.inl ⟨hnone, rfl, rfl⟩
      · next d hd =>
        obtain ⟨rfl, rfl⟩ := ok_mk_inj h
        exact Or.inr ⟨d, hd, rfl, rfl⟩
    · cases h

theorem Inv.tryGet {r : Option (Reply Trid Ctrlr Ns)} (h : Inv sp m)
    (hok : tryGet sp m k trid = .ok (m', r)) : Inv sp m' := by
  obtain ⟨_, hlock, ⟨d, hd, rfl, _⟩ | ⟨_, rfl, _⟩⟩ := tryGet_cases hok
  · refine ⟨h.short, h.locked, h.queued, h.nodup, h.attached, ?_⟩
    intro x hx
    rcases List.mem_cons.mp hx with rfl | hx
    · exact ⟨List.mem_of_find?_eq_some hd, List.find?_some (p := (Driver.isEqual sp · trid)) hd⟩
    · exact h.returned x hx
  · -- whoever is in a call holds the lock, which is free
    have hcalls : ∀ q, m.calls q = none := by
      intro q
      rcases Option.eq_none_or_eq_some (m.calls q) with hq | ⟨ctx, hq⟩
      · exact hq
      · rw [h.locked q ctx hq] at hlock
        cases hlock
    have only : ∀ q ctx, update m.calls k (some ⟨trid, none, false⟩) q = some ctx →
        q = k ∧ ctx = ⟨trid, none, false⟩ := by
      intro q ctx hq
      by_cases hqk : q = k
      · rw [hqk, update_self] at hq
        exact ⟨hqk, (Option.some.inj hq).symm⟩
      · rw [update_of_ne hqk, hcalls q] at hq
        cases hq
    have hqueue : m.probeQueue = [] := by
      apply List.eq_nil_iff_forall_not_mem.mpr
      intro q hq
      obtain ⟨ctx, hctx, _⟩ := h.queued q hq
      rw [hcalls q] at hctx
      cases hctx
    refine ⟨h.short, ?_, ?_, ?_, ?_, h.returned⟩
    · intro q ctx hq
      exact congrArg some (only q ctx hq).1.symm
    · intro q hq
      change q ∈ m.probeQueue ++ [k] at hq
      rw [hqueue] at hq
      obtain rfl := List.mem_singleton.mp hq
      exact ⟨_, update_self _ _ _, rfl⟩
    · change (m.probeQueue ++ [k]).Nodup
      rw [hqueue]
      exact List.nodup_cons.mpr ⟨List.not_mem_nil, List.nodup_nil⟩
    · intro q ctx d hq hd
      obtain ⟨_, rfl⟩ := only q ctx hq
      cases hd

omit [DecidableEq K] in
theorem Attaches.keeps {ctx ctx' : Context Trid Ctrlr Ns} (h : Attaches sp m m' ctx ctx')
    (d : Driver Trid Ctrlr Ns) (hd : d ∈ m.sharedDriverDatas) : d ∈ m'.sharedDriverDatas := by
  rcases h.drivers with ⟨hsame, _⟩ | ⟨_, hnil, _⟩
  · exact hsame ▸ hd
  · rw [hnil] at hd
    cases hd

theorem serve_drivers {o : Outcome Trid Ctrlr} (h : serve sp m o = .ok m') :
    ∀ d ∈ m.sharedDriverDatas, d ∈ m'.sharedDriverDatas := by
  obtain ⟨_, _, _, _, m1, _, _, _, _, hat, rfl⟩ := serve_cases h
  exact hat.keeps

theorem Inv.serve {o : Outcome Trid Ctrlr} (h : Inv sp m) (hok : serve sp m o = .ok m') :
    Inv sp m' := by
  obtain ⟨captured, k, rest, ctx, m1, ctx1, _, hqueue, hctx, hat, rfl⟩ := serve_cases hok
  have hcalls : m1.calls = m.calls := hat.calls
  have keep : ∀ d ∈ m.sharedDriverDatas, d ∈ m1.sharedDriverDatas := hat.keeps
  have here : ∀ q c, update m1.calls k (some { ctx1 with done := true }) q = some c →
      (q = k ∧ c = { ctx1 with done := true }) ∨ (q ≠ k ∧ m.calls q = some c) := by
    intro q c hq
    by_cases hqk : q = k
    · rw [hqk, update_self] at hq
      exact Or.inl ⟨hqk, (Option.some.inj hq).symm⟩
    · rw [update_of_ne hqk, hcalls] at hq
      exact Or.inr ⟨hqk, hq⟩
  have hnodup := h.nodup
  rw [hqueue, List.nodup_cons] at hnodup
  have hrest : m1.probeQueue = rest := hat.queue
  refine ⟨?_, ?_, ?_, ?_, ?_, ?_⟩
  · rcases hat.drivers with ⟨hsame, _⟩ | ⟨d, _, hone, _⟩
    · exact (congrArg List.length hsame).trans_le h.short
    · exact (congrArg List.length hone).le
  · intro q c hq
    change m1.lock = some q
    rw [hat.lock]
    rcases here q c hq with ⟨rfl, _⟩ | ⟨_, hq⟩
    · exact h.locked q ctx hctx
    · exact h.locked q c hq
  · intro q hq
    have hq' : q ∈ rest := hrest ▸ hq
    have hne : q ≠ k := by
      rintro rfl
      exact hnodup.1 hq'
    change ∃ c, update m1.calls k _ q = some c ∧ _
    rw [update_of_ne hne, hcalls]
    exact h.queued q (hqueue ▸ List.mem_cons_of_mem k hq')
  · exact hrest ▸ hnodup.2
  · intro q c d hq hd
    rcases here q c hq with ⟨rfl, rfl⟩ | ⟨_, hq⟩
    · change ctx1.driver = some d at hd
      change d ∈ m1.sharedDriverDatas ∧ d.isEqual sp ctx1.trid = true
      rw [hat.trid]
      rcases hat.drivers with ⟨_, hsame⟩ | ⟨d', _, hone, hd', heq⟩
      · obtain ⟨hmem, heq⟩ := h.attached q ctx d hctx (hsame.symm.trans hd)
        exact ⟨keep d hmem, heq⟩
      · rw [hd'] at hd
        obtain rfl := Option.some.inj hd
        exact ⟨by rw [hone]; exact List.mem_singleton_self _, heq⟩
    · obtain ⟨hmem, heq⟩ := h.attached q c d hq hd
      exact ⟨keep d hmem, heq⟩
  · intro x hx
    have hx' : x ∈ m.returned := by
      have hret : m1.returned = m.returned := hat.returned
      exact hret ▸ hx
    obtain ⟨hmem, heq⟩ := h.returned x hx'
    exact ⟨keep x.2 hmem, heq⟩

theorem Inv.finish {r : Reply Trid Ctrlr Ns} (h : Inv sp m) (hok : finish m k = .ok (m', r)) :
    Inv sp m' := by
  obtain ⟨ctx, hctx, hdone, hcase⟩ := finish_cases hok
  -- nobody else is in a call, and the context is no longer queued
  have alone : ∀ q c, m.calls q = some c → q = k := by
    intro q c hq
    have hk := h.locked k ctx hctx
    rw [h.locked q c hq] at hk
    exact Option.some.inj hk
  have hqueue : m.probeQueue = [] := by
    apply List.eq_nil_iff_forall_not_mem.mpr
    intro q hq
    obtain ⟨c, hc, hnot⟩ := h.queued q hq
    obtain rfl := alone q c hc
    rw [hctx] at hc
    obtain rfl := Option.some.inj hc
    rw [hdone] at hnot
    cases hnot
  have gone : ∀ q, update m.calls k none q = none := by
    intro q
    by_cases hqk : q = k
    · rw [hqk, update_self]
    · rw [update_of_ne hqk]
      rcases Option.eq_none_or_eq_some (m.calls q) with hq | ⟨c, hc⟩
      · exact hq
      · exact absurd (alone q c hc) hqk
  have left : ∀ ret : List (Trid × Driver Trid Ctrlr Ns),
      (∀ x ∈ ret, x.2 ∈ m.sharedDriverDatas ∧ x.2.isEqual sp x.1 = true) →
      Inv sp { m with lock := none, calls := update m.calls k none, returned := ret } := by
    intro ret hret
    refine ⟨h.short, ?_, ?_, h.nodup, ?_, hret⟩
    · intro q c hq
      change update m.calls k none q = some c at hq
      rw [gone q] at hq
      cases hq
    · intro q hq
      change q ∈ m.probeQueue at hq
      rw [hqueue] at hq
      cases hq
    · intro q c d hq
      change update m.calls k none q = some c at hq
      rw [gone q] at hq
      cases hq
  rcases hcase with ⟨_, rfl, _⟩ | ⟨d, hd, _, rfl⟩
  · exact left m.returned h.returned
  · apply left
    intro x hx
    rcases List.mem_cons.mp hx with rfl | hx
    · exact h.attached k ctx d hctx hd
    · exact h.returned x hx

theorem Inv.step {a : Act K Trid Ctrlr} (h : Inv sp m) (hstep : Step sp m a m') : Inv sp m' := by
  obtain ⟨_, hexec⟩ := hstep
  cases a with
  | tryGet k trid =>
    obtain ⟨r, hr⟩ := map_fst_ok hexec
    exact h.tryGet hr
  | serve o => exact h.serve hexec
  | finish k =>
    obtain ⟨r, hr⟩ := map_fst_ok hexec
    exact h.finish hr

omit [DecidableEq K] in
theorem Inv.start : Inv sp (Manager.start : Manager K Trid Ctrlr Ns) :=
  ⟨Nat.zero_le 1, nofun, nofun, List.nodup_nil, nofun, nofun⟩

/-- A request that waits for a probe is served its own just if it asks for what the thread was
created with. -/
theorem Served.tryGet_iff {r : Option (Reply Trid Ctrlr Ns)} (h : Served sp m) (hinv : Inv sp m)
    (hok : tryGet sp m k trid = .ok (m', r)) :
    Served sp m' ↔ AsksSame sp m (.tryGet k trid) := by
  obtain ⟨hidle, hlock, ⟨d, hd, rfl, _⟩ | ⟨hnone, rfl, _⟩⟩ := tryGet_cases hok
  · refine iff_of_true h ?_
    intro hnone
    rw [hd] at hnone
    cases hnone
  · have hcalls : ∀ q c, m.calls q ≠ some c := by
      intro q c hq
      rw [hinv.locked q c hq] at hlock
      cases hlock
    constructor
    · intro hserved _ captured hcaptured
      apply hserved captured k ⟨trid, none, false⟩ _ (update_self _ _ _)
      change some (m.dpdkThread.getD trid) = some captured
      rw [Option.mem_def.mp hcaptured]
      rfl
    · intro hasks captured q c hthread hq
      change update m.calls k _ q = some c at hq
      by_cases hqk : q = k
      · rw [hqk, update_self] at hq
        obtain rfl := Option.some.inj hq
        change some (m.dpdkThread.getD trid) = some captured at hthread
        rcases Option.eq_none_or_eq_some m.dpdkThread with hfirst | ⟨c0, hc0⟩
        · rw [hfirst] at hthread
          obtain rfl := Option.some.inj hthread
          exact SameArg.refl sp _
        · rw [hc0] at hthread
          obtain rfl := Option.some.inj hthread
          exact hasks hnone c0 (Option.mem_def.mpr hc0)
      · rw [update_of_ne hqk] at hq
        exact absurd hq (hcalls q c)

theorem Served.step {a : Act K Trid Ctrlr} (h : Served sp m) (hinv : Inv sp m)
    (hasks : AsksSame sp m a) (hstep : Step sp m a m') : Served sp m' := by
  obtain ⟨_, hexec⟩ := hstep
  cases a with
  | tryGet k trid =>
    obtain ⟨r, hr⟩ := map_fst_ok hexec
    exact (h.tryGet_iff hinv hr).mpr hasks
  | serve o =>
    obtain ⟨captured, k, rest, ctx, m1, ctx1, hthread, _, hctx, hat, rfl⟩ := serve_cases hexec
    intro captured' q c hthread' hq
    have hthread1 : m1.dpdkThread = m.dpdkThread := hat.thread
    have hcalls : m1.calls = m.calls := hat.calls
    change m1.dpdkThread = some captured' at hthread'
    rw [hthread1] at hthread'
    change update m1.calls k _ q = some c at hq
    by_cases hqk : q = k
    · rw [hqk, update_self] at hq
      obtain rfl := Option.some.inj hq
      change SameArg sp _ (probeArg sp ctx1.trid)
      rw [hat.trid]
      exact h captured' k ctx hthread' hctx
    · rw [update_of_ne hqk, hcalls] at hq
      exact h captured' q c hthread' hq
  | finish k =>
    obtain ⟨r, hr⟩ := map_fst_ok hexec
    obtain ⟨ctx, _, _, hcase⟩ := finish_cases hr
    have left : ∀ q c, update m.calls k none q = some c → m.calls q = some c := by
      intro q c hq
      by_cases hqk : q = k
      · rw [hqk, update_self] at hq
        cases hq
      · rw [update_of_ne hqk] at hq
        exact hq
    rcases hcase with ⟨_, rfl, _⟩ | ⟨d, _, _, rfl⟩
    · exact fun captured q c hthread hq => h captured q c hthread (left q c hq)
    · exact fun captured q c hthread hq => h captured q c hthread (left q c hq)

/-- What serving its own request comes to. -/
structure ServesOwn (sp : Spdk Trid Ctrlr Ns) (m : Manager K Trid Ctrlr Ns) : Prop where
  probes : ∀ captured k ctx, m.dpdkThread = some captured → k ∈ m.probeQueue →
    m.calls k = some ctx → SameArg sp (probeArg sp captured) (probeArg sp ctx.trid)
  /-- The assert of `probe_cb`. -/
  asserts : ∀ o, Probes sp m (.serve o) → exec sp m (.serve o) ≠ .error .mismatch
  equal : ∀ x ∈ m.returned, x.2.isEqual sp x.1 = true
  /-- Not only for equal ids. -/
  one : ∀ x ∈ m.returned, ∀ y ∈ m.returned, x.2 = y.2

theorem Served.no_mismatch (h : Served sp m) {o : Outcome Trid Ctrlr}
    (hprobes : Probes sp m (.serve o)) : exec sp m (.serve o) ≠ .error .mismatch := by
  intro herr
  simp only [exec, Nvme.serve] at herr
  split at herr
  · next captured k rest hthread hqueue =>
    split at herr
    · cases herr
    · next ctx hctx =>
      have harg := h captured k ctx hthread hctx
      have hof := hprobes captured (Option.mem_def.mpr hthread)
      rcases bind_error herr with hprobe | ⟨x, _, hrest⟩
      · rcases bind_error hprobe with hall | ⟨cs, _, hattach⟩
        · apply probeAll_no_mismatch ?_ _ hall
          intro x hx
          cases hc : probeArg sp captured with
          | none =>
            rw [hc] at hof
            exact Or.inl (hof x hx)
          | some trid =>
            rw [hc] at hof harg
            -- the context asks for the same id
            have hwant : probeArg sp ctx.trid = some ctx.trid := by
              unfold probeArg at harg ⊢
              split at harg
              · exact harg.elim
              · next hpci => exact if_neg hpci
            rw [hwant] at harg
            refine Or.inr ?_
            rw [hof x hx]
            exact sp.same_symm _ _ harg
        · cases attach_error hattach
      · split at hrest
        · cases hrest
        · cases hrest
  · cases herr

theorem Inv.servesOwn (h : Inv sp m) (hserved : Served sp m) : ServesOwn sp m := by
  refine ⟨fun captured k ctx hthread _ hctx => hserved captured k ctx hthread hctx,
    fun o => hserved.no_mismatch, fun x hx => (h.returned x hx).2, ?_⟩
  intro x hx y hy
  obtain ⟨hx', _⟩ := h.returned x hx
  obtain ⟨hy', _⟩ := h.returned y hy
  obtain ⟨d, hd⟩ := List.length_eq_one_iff.mp
    (Nat.le_antisymm h.short (List.length_pos_of_mem hx'))
  rw [hd] at hx' hy'
  rw [List.mem_singleton.mp hx', List.mem_singleton.mp hy']

/-- In every run whose requests to the thread ask for what it was created with, every probe serves
its own request; a request keeps it so exactly when it does ask for that, or finds its driver. -/
theorem serves_own_iff (sp : Spdk Trid Ctrlr Ns)
    (h : Reachable (· = Manager.start) (fun m a m' => AsksSame sp m a ∧ Step sp m a m') m) :
    ServesOwn sp m ∧ ∀ k trid m', Step sp m (.tryGet k trid) m' →
      (ServesOwn sp m' ↔ AsksSame sp m (.tryGet k trid)) := by
  obtain ⟨hinv, hserved⟩ : Inv sp m ∧ Served sp m := by
    refine h.invariant (I := fun m => Inv sp m ∧ Served sp m) ?_ ?_
    · intro m hm
      subst hm
      exact ⟨Inv.start, nofun⟩
    · intro m a m' hm hstep
      exact ⟨hm.1.step hstep.2, hm.2.step hm.1 hstep.1 hstep.2⟩
  refine ⟨hinv.servesOwn hserved, fun k trid m' hstep => ?_⟩
  obtain ⟨r, hr⟩ := map_fst_ok hstep.2
  constructor
  · intro hown hnone captured hcaptured
    obtain ⟨_, _, ⟨d, hd, _⟩ | ⟨_, rfl, _⟩⟩ := tryGet_cases hr
    · rw [hd] at hnone
      cases hnone
    · apply hown.probes captured k ⟨trid, none, false⟩ _ _ (update_self _ _ _)
      · change some (m.dpdkThread.getD trid) = some captured
        rw [Option.mem_def.mp hcaptured]
        rfl
      · exact List.mem_append_right _ (List.mem_singleton_self k)
  · intro hasks
    exact (hinv.tryGet hr).servesOwn ((hserved.tryGet_iff hinv hr).mpr hasks)

end Inv

section Runs

/-- Ids below 8 are on the local PCI bus. -/
def small : Spdk (Fin 16) Unit Unit where
  pcie i := decide (i < 8)
  pciAddr i := decide (i < 8)
  same i j := i == j
  same_refl := by decide
  same_symm := by decide
  numNs _ := 1
  getNs _ _ := some ()
  extendedSectorSize _ := 512
  nsSize _ := 2 ^ 30

instance {Trid Ctrlr Ns : Type} [DecidableEq Trid] (sp : Spdk Trid Ctrlr Ns)
    (arg : Option Trid) (o : Outcome Trid Ctrlr) : Decidable (o.Of sp arg) :=
  match arg with
  | none => inferInstanceAs (Decidable (∀ x ∈ o.found, sp.pcie x.1 = true))
  | some trid => inferInstanceAs (Decidable (∀ x ∈ o.found, x.1 = trid))

/-- Two PCI devices are asked for, the first is not there. -/
theorem serves_own_iff_pci : ∃ m : Manager Bool (Fin 16) Unit Unit,
    m.returned.map (·.1) = [2] ∧ ServesOwn small m ∧
      ∀ k trid m', Step small m (.tryGet k trid) m' →
        (ServesOwn small m' ↔ AsksSame small m (.tryGet k trid)) := by
  have next : ∀ {m m' : Manager Bool (Fin 16) Unit Unit} (a : Act Bool (Fin 16) Unit),
      Reachable (· = Manager.start) (fun m a m' => AsksSame small m a ∧ Step small m a m') m →
      AsksSame small m a → Probes small m a → exec small m a = .ok m' →
      Reachable (· = Manager.start) (fun m a m' => AsksSame small m a ∧ Step small m a m') m' :=
    fun a hm hasks hprobes hexec => hm.step ⟨hasks, hprobes, hexec⟩
  have h1 := next (.tryGet true 1) (.start rfl) nofun trivial rfl
  have h2 := next (.serve ⟨[(2, some ())], 0⟩) h1 trivial ?_ rfl
  · have h3 := next (.finish true) h2 trivial trivial rfl
    have h4 := next (.tryGet false 2) h3 ?_ trivial rfl
    · have h5 := next (.serve ⟨[(1, none), (2, some ())], 0⟩) h4 trivial ?_ rfl
      · have h6 := next (.finish false) h5 trivial trivial rfl
        exact ⟨_, rfl, serves_own_iff small h6⟩
      · intro captured hcaptured
        obtain rfl := Option.some.inj hcaptured
        decide
    · intro _ captured hcaptured
      obtain rfl := Option.some.inj hcaptured
      exact trivial
  · intro captured hcaptured
    obtain rfl := Option.some.inj hcaptured
    decide

/-- A fabrics device is not there, another one is asked for: the thread probes the first again,
and when it finds it now the assert of `probe_cb` fails. -/
theorem probes_for_first : ¬ ∀ m : Manager Bool (Fin 16) Unit Unit,
    Reachable (· = Manager.start) (Step small) m → ServesOwn small m := by
  intro hclaim
  have next : ∀ {m m' : Manager Bool (Fin 16) Unit Unit} (a : Act Bool (Fin 16) Unit),
      Reachable (· = Manager.start) (Step small) m → Probes small m a →
      exec small m a = .ok m' → Reachable (· = Manager.start) (Step small) m' :=
    fun a hm hprobes hexec => hm.step ⟨hprobes, hexec⟩
  have h1 := next (.tryGet true 8) (.start rfl) trivial rfl
  have h2 := next (.serve ⟨[], 0⟩) h1 ?_ rfl
  · have h3 := next (.finish true) h2 trivial rfl
    have h4 := next (.tryGet true 9) h3 trivial rfl
    apply (hclaim _ h4).asserts ⟨[(8, some ())], 0⟩
    · intro captured hcaptured
      obtain rfl := Option.some.inj hcaptured
      decide
    · rfl
  · intro captured hcaptured
    obtain rfl := Option.some.inj hcaptured
    decide

end Runs

end LockdepSpdk.Nvme
