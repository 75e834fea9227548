import LockdepSpdk.Blk.Retire
import LockdepSpdk.Blk.Submit
import LockdepSpdk.Blk.Opening

/-!
# Accounts

What the log of a run says was appended, submitted, completed and deleted, and
how it agrees with the chains, the commands in flight and the counters. The
lists have the newest event first, as the log has.
-/

namespace LockdepSpdk.Blk

set_option autoImplicit false

open Function

def Event.appended (c : CtxPtr) : Event → Option TaskPtr
  | .append d p => if d = c then some p else none
  | _ => none

def Event.submitted (c : CtxPtr) : Event → Option TaskPtr
  | .submit d p => if d = c then some p else none
  | _ => none

def Event.completed (c : CtxPtr) : Event → Option TaskPtr
  | .complete d p => if d = c then some p else none
  | _ => none

def Event.taken (c : CtxPtr) : Event → Option Int
  | .take d n => if d = c then some n else none
  | _ => none

def Event.called (c : CtxPtr) : Event → Option (IOContext × List Nat)
  | .callback d ctx pool => if d = c then some (ctx, pool) else none
  | _ => none

def Event.deleted : Event → Option TaskPtr
  | .delete p => some p
  | _ => none

def Event.retired : Event → Option TaskPtr
  | .complete _ p => some p
  | _ => none

def appends (c : CtxPtr) (log : List Event) : List TaskPtr := log.filterMap (Event.appended c)

def submits (c : CtxPtr) (log : List Event) : List TaskPtr := log.filterMap (Event.submitted c)

def completes (c : CtxPtr) (log : List Event) : List TaskPtr := log.filterMap (Event.completed c)

def takes (c : CtxPtr) (log : List Event) : List Int := log.filterMap (Event.taken c)

def calls (c : CtxPtr) (log : List Event) : List (IOContext × List Nat) :=
  log.filterMap (Event.called c)

def deletes (log : List Event) : List TaskPtr := log.filterMap Event.deleted

def retires (log : List Event) : List TaskPtr := log.filterMap Event.retired

def TaskPtr.isHeap : TaskPtr → Bool
  | .heap _ => true
  | .stack _ => false

section
variable (c d : CtxPtr) (p : TaskPtr) (log : List Event)

theorem submits_cons : submits d (.submit c p :: log) =
    if d = c then p :: submits d log else submits d log := by
  by_cases hd : d = c
  · rw [if_pos hd]
    exact List.filterMap_cons_some (if_pos hd.symm)
  · rw [if_neg hd]
    exact List.filterMap_cons_none (if_neg (Ne.symm hd))

theorem completes_cons : completes d (.complete c p :: log) =
    if d = c then p :: completes d log else completes d log := by
  by_cases hd : d = c
  · rw [if_pos hd]
    exact List.filterMap_cons_some (if_pos hd.symm)
  · rw [if_neg hd]
    exact List.filterMap_cons_none (if_neg (Ne.symm hd))

theorem takes_cons (n : Int) : takes d (.take c n :: log) =
    if d = c then n :: takes d log else takes d log := by
  by_cases hd : d = c
  · rw [if_pos hd]
    exact List.filterMap_cons_some (if_pos hd.symm)
  · rw [if_neg hd]
    exact List.filterMap_cons_none (if_neg (Ne.symm hd))

theorem calls_cons (ctx : IOContext) (pool : List Nat) : calls d (.callback c ctx pool :: log) =
    if d = c then (ctx, pool) :: calls d log else calls d log := by
  by_cases hd : d = c
  · rw [if_pos hd]
    exact List.filterMap_cons_some (if_pos hd.symm)
  · rw [if_neg hd]
    exact List.filterMap_cons_none (if_neg (Ne.symm hd))

end

structure Books (pend : CtxPtr → List TaskPtr) (rest : List TaskPtr) (s : Sys) : Prop where
  order : ∀ c, appends c s.log =
    (pend c).reverse ++ (if c = s.ioc then rest else []).reverse ++ submits c s.log
  flights : ∀ c, (submits c s.log).Perm
    ((if c = s.ioc then flight s.inflight else []) ++ completes c s.log)
  nodup : ∀ c, (appends c s.log).Nodup
  known : ∀ c, ∀ p ∈ appends c s.log, p.index < s.fresh
  deleted : deletes s.log = (retires s.log).filter TaskPtr.isHeap
  once : (deletes s.log).Nodup
  dead : ∀ p ∈ deletes s.log, s.tasks p = none ∧ p.index < s.fresh
  running : ∀ c, (takes c s.log).sum = (s.ctxs c).numRunning + (completes c s.log).length
  callbacks : ∀ c, (s.ctxs c).priv ≠ none → (takes c s.log).length =
    (calls c s.log).length + if c = s.ioc ∧ flight s.inflight ++ rest ≠ [] then 1 else 0

section
variable {cfg : Config} {pend : CtxPtr → List TaskPtr} {rest : List TaskPtr} {s s' : Sys}
  {c : CtxPtr}

def outstanding (s : Sys) (c : CtxPtr) : Nat :=
  (appends c s.log).length - (completes c s.log).length

theorem Books.outstanding_eq (h : Books pend rest s) (c : CtxPtr) : outstanding s c =
    (pend c).length + (if c = s.ioc then flight s.inflight ++ rest else []).length := by
  have horder := congrArg List.length (h.order c)
  have hflights := (h.flights c).length_eq
  simp only [List.length_append, List.length_reverse] at horder hflights
  unfold outstanding
  by_cases hc : c = s.ioc
  · simp only [if_pos hc, List.length_append] at horder hflights ⊢
    omega
  · simp only [if_neg hc, List.length_nil] at horder hflights ⊢
    omega

theorem Books.silent (h : Books pend rest s) (hlog : s'.log = s.log)
    (hflight : flight s'.inflight = flight s.inflight) (hioc : s'.ioc = s.ioc)
    (hfresh : s.fresh ≤ s'.fresh)
    (hdead : ∀ p, s.tasks p = none → p.index < s.fresh → s'.tasks p = none)
    (hrun : ∀ c, (s'.ctxs c).numRunning = (s.ctxs c).numRunning)
    (hpriv : ∀ c, (s'.ctxs c).priv ≠ none → (s.ctxs c).priv ≠ none) : Books pend rest s' where
  order := by
    rw [hlog, hioc]
    exact h.order
  flights := by
    rw [hlog, hioc, hflight]
    exact h.flights
  nodup := by
    rw [hlog]
    exact h.nodup
  known := by
    intro c p hp
    rw [hlog] at hp
    exact Nat.lt_of_lt_of_le (h.known c p hp) hfresh
  deleted := by
    rw [hlog]
    exact h.deleted
  once := by
    rw [hlog]
    exact h.once
  dead := by
    intro p hp
    rw [hlog] at hp
    obtain ⟨hnone, hlt⟩ := h.dead p hp
    exact ⟨hdead p hnone hlt, Nat.lt_of_lt_of_le hlt hfresh⟩
  running := by
    intro c
    rw [hlog, hrun]
    exact h.running c
  callbacks := by
    intro c hc
    rw [hlog, hioc, hflight]
    exact h.callbacks c (hpriv c hc)

/-! The log of a loop that appends. -/

variable {ps : List TaskPtr} {js : List Job} {s0 : Sys} {log : List Event}

theorem appends_loop (d : CtxPtr) : appends d ((ps.map (Event.append c)).reverse ++ log) =
    (if d = c then ps else []).reverse ++ appends d log := by
  unfold appends
  rw [List.filterMap_append, List.filterMap_reverse, List.filterMap_map]
  congr 2
  by_cases hd : d = c
  · subst hd
    rw [if_pos rfl]
    have hsome : Event.appended d ∘ Event.append d = some := by
      funext p
      exact if_pos rfl
    rw [hsome, List.filterMap_some]
  · rw [if_neg hd]
    apply List.filterMap_eq_nil_iff.mpr
    intro p _
    exact if_neg fun heq => hd heq.symm

theorem filterMap_loop {β : Type} {g : Event → Option β} (hg : ∀ p, g (.append c p) = none) :
    ((ps.map (Event.append c)).reverse ++ log).filterMap g = log.filterMap g := by
  rw [List.filterMap_append, List.filterMap_reverse, List.filterMap_map]
  have hnil : ps.filterMap (g ∘ Event.append c) = [] :=
    List.filterMap_eq_nil_iff.mpr fun p _ => hg p
  rw [hnil, List.reverse_nil, List.nil_append]

theorem Books.extends (h : Books pend [] s0) (hext : Extends pend c s0 ps js s)
    (hin : s0.inflight = []) (hrun : ∀ d, (s0.ctxs d).numRunning = 0)
    (hnew : ∀ p ∈ ps, (∀ d, p ∉ appends d s0.log) ∧ p.index < s.fresh) :
    Books (update pend c (pend c ++ ps)) [] s := by
  have hioc : s.ioc = s0.ioc := by rw [hext.same]
  have hin' : s.inflight = [] := by rw [hext.same]; exact hin
  have hrest : ∀ d, (if d = s.ioc then ([] : List TaskPtr) else []) = [] := fun d => ite_self _
  have hsubmits : ∀ d, submits d s.log = submits d s0.log := by
    intro d
    rw [hext.log]
    exact filterMap_loop fun _ => rfl
  have hcompletes : ∀ d, completes d s.log = completes d s0.log := by
    intro d
    rw [hext.log]
    exact filterMap_loop fun _ => rfl
  have htakes : ∀ d, takes d s.log = takes d s0.log := by
    intro d
    rw [hext.log]
    exact filterMap_loop fun _ => rfl
  have hcalls : ∀ d, calls d s.log = calls d s0.log := by
    intro d
    rw [hext.log]
    exact filterMap_loop fun _ => rfl
  have hdeletes : deletes s.log = deletes s0.log := by
    rw [hext.log]
    exact filterMap_loop fun _ => rfl
  have hretires : retires s.log = retires s0.log := by
    rw [hext.log]
    exact filterMap_loop fun _ => rfl
  have hnodup : ps.Nodup := by
    have hchain := (hext.loaded.pending c).chain.nodup
    rw [update_self] at hchain
    exact (List.nodup_append.mp hchain).2.1
  have hsub : ∀ d, ∀ p ∈ (if d = c then ps else []).reverse, p ∈ ps := by
    intro d p hp
    rw [List.mem_reverse] at hp
    by_cases hd : d = c
    · rwa [if_pos hd] at hp
    · rw [if_neg hd] at hp
      cases hp
  refine ⟨?_, ?_, ?_, ?_, ?_, ?_, ?_, ?_, ?_⟩
  · intro d
    have horder := h.order d
    rw [hsubmits, hrest, hext.log, appends_loop, horder, ite_self]
    by_cases hd : d = c
    · subst hd
      rw [if_pos rfl, update_self, List.reverse_append]
      simp only [List.append_assoc]
    · rw [if_neg hd, update_of_ne hd]
      simp only [List.reverse_nil, List.nil_append]
  · intro d
    have hflights := h.flights d
    rw [hin] at hflights
    rw [hsubmits, hcompletes, hin', hioc]
    exact hflights
  · intro d
    rw [hext.log, appends_loop]
    refine List.nodup_append.mpr ⟨?_, h.nodup d, ?_⟩
    · by_cases hd : d = c
      · rw [if_pos hd]
        exact (List.reverse_perm ps).nodup_iff.mpr hnodup
      · rw [if_neg hd]
        exact List.nodup_nil
    · intro p hp p' hp' heq
      exact (hnew p (hsub d p hp)).1 d (heq ▸ hp')
  · intro d p hp
    rw [hext.log, appends_loop] at hp
    rcases List.mem_append.mp hp with hp | hp
    · exact (hnew p (hsub d p hp)).2
    · exact Nat.lt_of_lt_of_le (h.known d p hp) hext.fresh
  · rw [hdeletes, hretires]
    exact h.deleted
  · rw [hdeletes]
    exact h.once
  · intro p hp
    rw [hdeletes] at hp
    obtain ⟨hnone, hlt⟩ := h.dead p hp
    exact ⟨hext.dead p hnone hlt, Nat.lt_of_lt_of_le hlt hext.fresh⟩
  · intro d
    rw [htakes, hcompletes, hext.loaded.running d, ← hrun d]
    exact h.running d
  · intro d hd
    have hcall := h.callbacks d (hext.priv d ▸ hd)
    rw [hin] at hcall
    rw [htakes, hcalls, hin', hioc]
    exact hcall

theorem Books.take (h : Books pend [] s) (hin : s.inflight = [])
    (hrun : ∀ d, (s.ctxs d).numRunning = 0) (c : CtxPtr) (hne : pend c ≠ []) :
    Books (update pend c []) (pend c) (taken s c (pend c)) where
  order := by
    intro d
    have horder := h.order d
    rw [ite_self, List.reverse_nil, List.append_nil] at horder
    change appends d s.log = _
    rw [horder]
    change _ = _ ++ (if d = c then pend c else []).reverse ++ submits d s.log
    by_cases hd : d = c
    · subst hd
      rw [if_pos rfl, update_self, List.reverse_nil, List.nil_append]
    · rw [if_neg hd, update_of_ne hd, List.reverse_nil, List.append_nil]
  flights := by
    intro d
    have hflights := h.flights d
    have hnil : flight s.inflight = [] := by
      rw [hin]
      exact rfl
    change (submits d s.log).Perm ((if d = c then flight s.inflight else []) ++ completes d s.log)
    rw [hnil, ite_self] at hflights ⊢
    exact hflights
  nodup := h.nodup
  known := h.known
  deleted := h.deleted
  once := h.once
  dead := h.dead
  running := by
    intro d
    have hsum := h.running d
    rw [hrun d] at hsum
    change (takes d (.take c (pend c).length :: s.log)).sum =
      (update s.ctxs c _ d).numRunning + (completes d s.log).length
    rw [takes_cons]
    by_cases hd : d = c
    · subst hd
      rw [if_pos rfl, List.sum_cons, update_self, hsum, Int.zero_add]
    · rw [if_neg hd, update_of_ne hd, hrun d]
      exact hsum
  callbacks := by
    intro d hd
    have hnil : flight s.inflight = [] := by
      rw [hin]
      exact rfl
    have hpriv : (s.ctxs d).priv ≠ none := by
      by_cases hd' : d = c
      · subst hd'
        change (update s.ctxs d _ d).priv ≠ none at hd
        rwa [update_self] at hd
      · change (update s.ctxs c _ d).priv ≠ none at hd
        rwa [update_of_ne hd'] at hd
    have hcall := h.callbacks d hpriv
    rw [hnil, if_neg (by simp)] at hcall
    change (takes d (.take c (pend c).length :: s.log)).length =
      (calls d s.log).length + if d = c ∧ flight s.inflight ++ pend c ≠ [] then 1 else 0
    rw [hnil, List.nil_append, takes_cons]
    by_cases hd' : d = c
    · subst hd'
      rw [if_pos rfl, List.length_cons, if_pos ⟨rfl, hne⟩, hcall]
    · rw [if_neg hd', if_neg fun h => hd' h.1]
      exact hcall

theorem Books.submit {p : TaskPtr} {task : Task} (h : Books pend (p :: rest) s)
    (htask : s.tasks p = some task) :
    Books pend rest (afterSubmit cfg s p task) where
  order := by
    intro d
    have horder := h.order d
    change appends d s.log = _ ++ (if d = s.ioc then rest else []).reverse ++
      submits d (.submit s.ioc p :: s.log)
    rw [horder, submits_cons]
    by_cases hd : d = s.ioc
    · rw [if_pos hd, if_pos hd, if_pos hd, List.reverse_cons]
      simp only [List.append_assoc, List.singleton_append]
    · rw [if_neg hd, if_neg hd, if_neg hd]
  flights := by
    intro d
    have hflights := h.flights d
    change (submits d (.submit s.ioc p :: s.log)).Perm
      ((if d = s.ioc then flight (s.inflight ++ [sentCommand cfg s p task]) else []) ++
        completes d s.log)
    rw [submits_cons]
    by_cases hd : d = s.ioc
    · rw [if_pos hd] at hflights
      rw [if_pos hd, if_pos hd, flight_append]
      exact (hflights.cons p).trans List.perm_middle.symm
    · rw [if_neg hd] at hflights
      rw [if_neg hd, if_neg hd]
      exact hflights
  nodup := h.nodup
  known := h.known
  deleted := h.deleted
  once := h.once
  dead := by
    intro p' hp'
    obtain ⟨hnone, hlt⟩ := h.dead p' hp'
    exact ⟨update_unused htask hnone, hlt⟩
  running := by
    intro d
    have hsum := h.running d
    change (takes d s.log).sum = (update s.ctxs s.ioc _ d).numRunning + (completes d s.log).length
    by_cases hd : d = s.ioc
    · subst hd
      rw [update_self]
      exact hsum
    · rw [update_of_ne hd]
      exact hsum
  callbacks := by
    intro d hd
    have hpriv : (s.ctxs d).priv ≠ none := by
      change (update s.ctxs s.ioc _ d).priv ≠ none at hd
      by_cases hd' : d = s.ioc
      · subst hd'
        rwa [update_self] at hd
      · rwa [update_of_ne hd'] at hd
    have hcall := h.callbacks d hpriv
    change (takes d s.log).length = (calls d s.log).length +
      if d = s.ioc ∧ flight (s.inflight ++ [sentCommand cfg s p task]) ++ rest ≠ [] then 1 else 0
    rw [flight_append]
    exact hcall

/-! A completion. -/

variable {i : Nat} {cmd : Command} {task : Task} {p : TaskPtr}

theorem callbacks_cases (ctx : IOContext) (pool : List Nat) :
    (callbacks c ctx pool = [] ∧ (ctx.priv = none ∨ ctx.numRunning ≠ 0)) ∨
      (callbacks c ctx pool = [.callback c ctx pool] ∧ ctx.priv ≠ none ∧ ctx.numRunning = 0) := by
  unfold callbacks
  by_cases h : ctx.priv ≠ none ∧ ctx.numRunning = 0
  · rw [if_pos h]
    exact Or.inr ⟨rfl, h⟩
  · rw [if_neg h]
    by_cases hpriv : ctx.priv = none
    · exact Or.inl ⟨rfl, Or.inl hpriv⟩
    · exact Or.inl ⟨rfl, Or.inr fun h0 => h ⟨hpriv, h0⟩⟩

/-- The events of a completion: a deletion unless the task is the frame, and before it a callback
when the context has one and this was its last task. -/
def Retiring (s : Sys) (p : TaskPtr) (events : List Event) : Prop :=
  (∃ calls, events = .delete p :: calls ∧ p.isHeap = true ∧
    ((calls = [] ∧ (s.frame = none →
      (s.ctxs s.ioc).priv = none ∨ (s.ctxs s.ioc).numRunning - 1 ≠ 0)) ∨
    (s.frame = none ∧ (s.ctxs s.ioc).priv ≠ none ∧ (s.ctxs s.ioc).numRunning - 1 = 0 ∧
      ∃ ctx pool, calls = [.callback s.ioc ctx pool]))) ∨
  (events = [] ∧ p.isHeap = false ∧ s.frame = some p)

theorem retireEvents_cases (hkind : Kind s.frame p task)
    (hstack : ∀ q, s.frame = some q → ∃ n, q = .stack n) :
    Retiring s p (retireEvents s p task) := by
  rcases Option.eq_none_or_eq_some s.frame with hframe | ⟨q, hframe⟩
  · obtain ⟨_, _, n, hn⟩ := hkind.plain hframe
    have hheap : p.isHeap = true := by rw [hn]; exact rfl
    refine Or.inl ?_
    by_cases hcommand : task.command = .writeCommand
    · rw [retireEvents_write hframe hcommand]
      refine ⟨_, rfl, hheap, ?_⟩
      rcases callbacks_cases (c := s.ioc)
        { s.ctxs s.ioc with numRunning := (s.ctxs s.ioc).numRunning - 1 } s.dataBufList with
        ⟨hnil, hor⟩ | ⟨hcall, hpriv, h0⟩
      · exact Or.inl ⟨hnil, fun _ => hor⟩
      · exact Or.inr ⟨hframe, hpriv, h0, _, _, hcall⟩
    · rw [retireEvents_read hframe hcommand]
      refine ⟨_, rfl, hheap, ?_⟩
      rcases callbacks_cases (c := s.ioc) { s.ctxs s.ioc with
          numRunning := (s.ctxs s.ioc).numRunning - 1
          totalNseg := (s.ctxs s.ioc).totalNseg - task.ioRequest.nseg }
          ((task.ioRequest.segs.take task.ioRequest.nseg).reverse ++ s.dataBufList) with
        ⟨hnil, hor⟩ | ⟨hcall, hpriv, h0⟩
      · exact Or.inl ⟨hnil, fun _ => hor⟩
      · exact Or.inr ⟨hframe, hpriv, h0, _, _, hcall⟩
  · rw [retireEvents_sync hframe]
    rcases (hkind.sync hframe).2.2 with ⟨heq, _⟩ | ⟨hne, _, n, hn⟩
    · obtain ⟨n, hn⟩ := hstack q hframe
      rw [if_pos heq]
      refine Or.inr ⟨rfl, ?_, by rw [hframe, heq]⟩
      rw [heq, hn]
      exact rfl
    · rw [if_neg hne]
      refine Or.inl ⟨[], rfl, by rw [hn]; exact rfl, Or.inl ⟨rfl, ?_⟩⟩
      intro hnone
      rw [hframe] at hnone
      cases hnone

theorem retireTasks_heap (hheap : p.isHeap = true)
    (hstack : ∀ q, s.frame = some q → ∃ n, q = .stack n) : retireTasks s p task p = none := by
  rcases Option.eq_none_or_eq_some s.frame with hframe | ⟨q, hframe⟩
  · rw [retireTasks_none hframe, update_self]
  · have hne : p ≠ q := by
      intro heq
      obtain ⟨n, hn⟩ := hstack q hframe
      rw [heq, hn] at hheap
      cases hheap
    rw [retireTasks_sub hframe hne, update_self]

/-- What the events of a completion add to the accounts. -/
structure RetireLog (s : Sys) (p : TaskPtr) (events log : List Event) : Prop where
  appends : ∀ d, appends d (events ++ log) = appends d log
  submits : ∀ d, submits d (events ++ log) = submits d log
  completes : ∀ d, completes d (events ++ log) = completes d log
  takes : ∀ d, takes d (events ++ log) = takes d log
  retires : retires (events ++ log) = retires log
  deletes : deletes (events ++ log) = if p.isHeap then p :: deletes log else deletes log
  calls : ∀ d, (calls d (events ++ log)).length = (calls d log).length +
    if d = s.ioc ∧ s.frame = none ∧ (s.ctxs s.ioc).priv ≠ none ∧
      (s.ctxs s.ioc).numRunning - 1 = 0 then 1 else 0

theorem Retiring.adds {events : List Event} (h : Retiring s p events) (log : List Event) :
    RetireLog s p events log := by
  rcases h with
    ⟨es, hes, hheap, ⟨hnil, hnot⟩ | ⟨hframe, hpriv, h0, ctx, pool, hcall⟩⟩ | ⟨hes, hstack', hframe⟩
  · rw [hes, hnil]
    refine ⟨fun _ => rfl, fun _ => rfl, fun _ => rfl, fun _ => rfl, rfl, (if_pos hheap).symm, ?_⟩
    intro d
    rw [if_neg]
    · exact rfl
    · rintro ⟨_, hframe, hpriv, h0⟩
      rcases hnot hframe with hnone | hne
      · exact hpriv hnone
      · exact hne h0
  · rw [hes, hcall]
    refine ⟨fun _ => rfl, fun _ => rfl, fun _ => rfl, fun _ => rfl, rfl, (if_pos hheap).symm, ?_⟩
    intro d
    change (calls d (.callback s.ioc ctx pool :: log)).length = _
    rw [calls_cons]
    by_cases hd : d = s.ioc
    · rw [if_pos hd, if_pos ⟨hd, hframe, hpriv, h0⟩]
      exact rfl
    · rw [if_neg hd, if_neg fun h => hd h.1]
      exact rfl
  · rw [hes]
    refine ⟨fun _ => rfl, fun _ => rfl, fun _ => rfl, fun _ => rfl, rfl, ?_, ?_⟩
    · rw [hstack']
      exact rfl
    · intro d
      rw [if_neg]
      · exact rfl
      · rintro ⟨_, hnone, _⟩
        rw [hframe] at hnone
        cases hnone

theorem Core.index_lt (h : Core cfg pend rest s) (hp : s.tasks p ≠ none) : p.index < s.fresh := by
  by_contra hge
  have hnone := h.fresh p.index (Nat.le_of_not_lt hge)
  cases p with
  | heap n => exact hp hnone.1
  | stack n => exact hp hnone.2

theorem Books.retire (h : Books pend rest s) (hcore : Core cfg pend rest s)
    (hi : s.inflight[i]? = some cmd) (htask : s.tasks cmd.task = some task)
    (hsent : Sent cfg s.frame s.ioc cmd task) (mem : Nat → UInt8)
    (hsync : s.frame ≠ none → (s.ctxs s.ioc).priv = none) :
    Books pend rest (Blk.completed { s with inflight := s.inflight.eraseIdx i } cmd.task task
      (retireTasks s cmd.task task) mem (retireEvents s cmd.task task)) := by
  have hlog := (retireEvents_cases hsent.kind fun q hq => (hcore.frame q hq).1).adds
    (.complete s.ioc cmd.task :: s.log)
  have hperm := (inflight_perm hi).map Command.task
  have hlive := live_perm rest hi
  have hrun := hcore.running s.ioc
  rw [if_pos rfl, hlive.length_eq, List.length_cons] at hrun
  have hnotdead : cmd.task ∉ deletes s.log := by
    intro hmem
    have hnone := (h.dead _ hmem).1
    rw [htask] at hnone
    cases hnone
  have hctx : ∀ d, ((Blk.completed { s with inflight := s.inflight.eraseIdx i } cmd.task task
      (retireTasks s cmd.task task) mem (retireEvents s cmd.task task)).ctxs d).priv =
      (s.ctxs d).priv := by
    intro d
    change (update s.ctxs s.ioc _ d).priv = _
    by_cases hd : d = s.ioc
    · subst hd
      rw [update_self]
    · rw [update_of_ne hd]
  refine ⟨?_, ?_, ?_, ?_, ?_, ?_, ?_, ?_, ?_⟩
  · intro d
    exact (hlog.appends d).trans ((h.order d).trans
      (congrArg _ ((hlog.submits d).symm : submits d s.log = _)))
  · intro d
    refine (List.Perm.of_eq (hlog.submits d)).trans ?_
    refine (h.flights d).trans ?_
    refine List.Perm.trans ?_ (List.Perm.of_eq
      (congrArg _ ((hlog.completes d).trans (completes_cons _ _ _ _)).symm))
    change ((if d = s.ioc then flight s.inflight else []) ++ completes d s.log).Perm
      ((if d = s.ioc then flight (s.inflight.eraseIdx i) else []) ++ _)
    by_cases hd : d = s.ioc
    · rw [if_pos hd, if_pos hd, if_pos hd]
      refine (hperm.append_right _).trans ?_
      exact List.perm_middle.symm
    · rw [if_neg hd, if_neg hd, if_neg hd]
  · intro d
    refine (List.Perm.of_eq (hlog.appends d)).nodup_iff.mpr ?_
    exact h.nodup d
  · intro d p hp
    exact h.known d p ((hlog.appends d) ▸ hp)
  · refine hlog.deletes.trans ?_
    refine Eq.trans ?_ (congrArg (List.filter TaskPtr.isHeap) hlog.retires.symm)
    change _ = (cmd.task :: retires s.log).filter TaskPtr.isHeap
    have hdeleted : deletes (.complete s.ioc cmd.task :: s.log) =
        (retires s.log).filter TaskPtr.isHeap := h.deleted
    rw [hdeleted, List.filter_cons]
  · refine (List.Perm.of_eq hlog.deletes).nodup_iff.mpr ?_
    have honce : (deletes (.complete s.ioc cmd.task :: s.log)).Nodup := h.once
    split
    · exact List.nodup_cons.mpr ⟨hnotdead, honce⟩
    · exact honce
  · intro p hp
    have hp' : p ∈ if cmd.task.isHeap then cmd.task :: deletes s.log else deletes s.log :=
      hlog.deletes ▸ hp
    have hold : p ∈ deletes s.log → (retireTasks s cmd.task task p = none ∧ p.index < s.fresh) := by
      intro hmem
      obtain ⟨hnone, hlt⟩ := h.dead p hmem
      refine ⟨?_, hlt⟩
      rw [retireTasks_of_ne]
      · exact hnone
      · intro heq
        exact hnotdead (heq ▸ hmem)
      · intro hq
        obtain ⟨_, prim, hprim, _⟩ := hcore.frame p hq
        rw [hnone] at hprim
        cases hprim
    split at hp'
    · next hheap =>
      rcases List.mem_cons.mp hp' with heq | hmem
      · subst heq
        refine ⟨retireTasks_heap hheap fun q hq => (hcore.frame q hq).1, ?_⟩
        apply hcore.index_lt
        rw [htask]
        exact Option.some_ne_none task
      · exact hold hmem
    · exact hold hp'
  · intro d
    have hsum := h.running d
    refine (congrArg List.sum (hlog.takes d)).trans ?_
    change (takes d s.log).sum = (update s.ctxs s.ioc _ d).numRunning +
      ((completes d (retireEvents s cmd.task task ++ .complete s.ioc cmd.task :: s.log)).length : Int)
    rw [hlog.completes d, completes_cons, hsum]
    by_cases hd : d = s.ioc
    · subst hd
      rw [if_pos rfl, update_self, List.length_cons]
      change _ = (s.ctxs s.ioc).numRunning - 1 + _
      omega
    · rw [if_neg hd, update_of_ne hd]
  · intro d hd
    have hpriv : (s.ctxs d).priv ≠ none := hctx d ▸ hd
    have hcall := h.callbacks d hpriv
    refine (congrArg List.length (hlog.takes d)).trans ?_
    change (takes d s.log).length =
      (calls d (retireEvents s cmd.task task ++ .complete s.ioc cmd.task :: s.log)).length +
        if d = s.ioc ∧ flight (s.inflight.eraseIdx i) ++ rest ≠ [] then 1 else 0
    rw [hlog.calls d, hcall]
    change (calls d s.log).length + _ = (calls d s.log).length + _ + _
    by_cases hd' : d = s.ioc
    · subst hd'
      have hframe : s.frame = none := by
        by_contra hne
        exact hpriv (hsync hne)
      have hne : flight s.inflight ++ rest ≠ [] :=
        List.ne_nil_of_mem (hlive.mem_iff.mpr List.mem_cons_self)
      rw [if_pos ⟨rfl, hne⟩]
      by_cases hnil : flight (s.inflight.eraseIdx i) ++ rest = []
      · rw [hnil, List.length_nil] at hrun
        rw [if_pos ⟨rfl, hframe, hpriv, by omega⟩, if_neg fun h => h.2 hnil]
      · have hpos := List.length_pos_of_ne_nil hnil
        rw [if_neg fun h => by omega, if_pos ⟨rfl, hnil⟩]
    · rw [if_neg fun h => hd' h.1, if_neg fun h => hd' h.1, if_neg fun h => hd' h.1]

end

end LockdepSpdk.Blk
