import LockdepSpdk.Blk.Loading

/-!
# From a call to its tasks

What a context holds once `write_split` or `make_read_tasks` has run, for calls
that only fill a context and for those that fill one of their own.
-/

namespace LockdepSpdk.Blk

set_option autoImplicit false

open Function Linked Transition

def TaskPtr.index : TaskPtr → Nat
  | .heap n => n
  | .stack n => n

def WriteChunk.job (ch : WriteChunk) : Job := ⟨.writeCommand, ch.off, ch.len, ch.buf, none⟩

def ReadChunk.job (ch : ReadChunk) : Job := ⟨.readCommand, ch.off, ch.len, 0, some ch.fill⟩

/-- `s` is `s0` with the tasks `ps`, made for `jobs`, behind the chain of `c`. -/
structure Extends (pend : CtxPtr → List TaskPtr) (c : CtxPtr) (s0 : Sys) (ps : List TaskPtr)
    (jobs : List Job) (s : Sys) : Prop where
  loaded : Loaded (update pend c (pend c ++ ps)) c s
  same : s = { s0 with tasks := s.tasks, ctxs := s.ctxs, fresh := s.fresh, log := s.log }
  priv : ∀ d, (s.ctxs d).priv = (s0.ctxs d).priv
  jobs : (pend c ++ ps).map (jobOf s.tasks) = (pend c).map (jobOf s0.tasks) ++ jobs.map some
  known : ∀ p ∈ ps, s0.frame = some p ∨ (s0.fresh ≤ p.index ∧ p.index < s.fresh)
  dead : ∀ p, s0.tasks p = none → p.index < s0.fresh → s.tasks p = none
  fresh : s0.fresh ≤ s.fresh
  log : s.log = (ps.map (Event.append c)).reverse ++ s0.log

section
variable {pend : CtxPtr → List TaskPtr} {c : CtxPtr} {s0 s1 s : Sys} {ps qs : List TaskPtr}
  {js ks : List Job}

theorem Extends.refl (h : Loaded pend c s) : Extends pend c s [] [] s where
  loaded := by
    rw [List.append_nil, update_eq_self]
    exact h
  same := rfl
  priv := fun _ => rfl
  jobs := by simp
  known := by simp
  dead := fun _ hp _ => hp
  fresh := Nat.le_refl _
  log := rfl

theorem Extends.frame_eq (h : Extends pend c s0 ps js s) : s.frame = s0.frame := by
  rw [h.same]

theorem Extends.trans (h : Extends pend c s0 ps js s1)
    (h' : Extends (update pend c (pend c ++ ps)) c s1 qs ks s) :
    Extends pend c s0 (ps ++ qs) (js ++ ks) s where
  loaded := by
    have hl := h'.loaded
    rw [update_self, update_idem, List.append_assoc] at hl
    exact hl
  same := by
    rw [h'.same, h.same]
  priv := fun d => (h'.priv d).trans (h.priv d)
  jobs := by
    have hj := h'.jobs
    rw [update_self, h.jobs] at hj
    rw [← List.append_assoc, hj, List.map_append, List.append_assoc]
  known := by
    intro p hp
    have hle := h.fresh
    have hle' := h'.fresh
    rcases List.mem_append.mp hp with hp | hp
    · rcases h.known p hp with hf | hk
      · exact Or.inl hf
      · exact Or.inr (by omega)
    · rcases h'.known p hp with hf | hk
      · exact Or.inl (h.frame_eq ▸ hf)
      · exact Or.inr (by omega)
  dead := fun p hp hlt => h'.dead p (h.dead p hp hlt) (Nat.lt_of_lt_of_le hlt h.fresh)
  fresh := Nat.le_trans h.fresh h'.fresh
  log := by
    rw [h'.log, h.log, List.map_append, List.reverse_append, List.append_assoc]

theorem Extends.length_eq (h : Extends pend c s0 ps js s) : ps.length = js.length := by
  have hlen := congrArg List.length h.jobs
  simp only [List.length_map, List.length_append] at hlen
  omega

/-- `tasks` is the memory of `s` with one more task `p`, which `c` does not have yet. -/
structure Made (pend : CtxPtr → List TaskPtr) (c : CtxPtr) (s : Sys)
    (tasks : TaskPtr → Option Task) (fresh : Nat) (p : TaskPtr) (task : Task) : Prop where
  self : tasks p = some task
  ready : Ready s.frame c p task
  next : task.next = none
  new : ∀ d, p ∉ pend d
  others : ∀ p', p' ≠ p → s.frame ≠ some p' → tasks p' = s.tasks p'
  frame : ∀ q, s.frame = some q →
    ∃ prim, tasks q = some prim ∧ Primary q (pend c ++ [p]) 1 prim
  unused : ∀ n, fresh ≤ n → tasks (.heap n) = none ∧ tasks (.stack n) = none
  known : s.frame = some p ∨ (s.fresh ≤ p.index ∧ p.index < fresh)
  le : s.fresh ≤ fresh

theorem Made.extends {tasks : TaskPtr → Option Task} {fresh : Nat} {p : TaskPtr} {task : Task}
    (hm : Made pend c s tasks fresh p task) (h : Loaded pend c s)
    (hlt : (pend c).length + 1 < 2 ^ 31) :
    ∃ s', iocAppendTask { s with tasks := tasks, fresh := fresh } c p = .ok s' ∧
      Extends pend c s [p] [task.job] s' := by
  obtain ⟨happ, hl⟩ := h.append hm.self hm.ready hm.next hm.new hm.others hm.frame hm.unused hlt
  refine ⟨_, happ, hl, rfl, ?_, ?_, ?_, ?_, hm.le, rfl⟩
  · intro d
    change (update s.ctxs c _ d).priv = _
    by_cases hd : d = c
    · subst hd
      rw [update_self]
    · rw [update_of_ne hd]
  · change (pend c ++ [p]).map (jobOf (linked tasks (pend c).getLast? p)) = _
    rw [List.map_append]
    congr 1
    · apply List.map_congr_left
      intro p' hp'
      rw [jobOf_linked]
      unfold jobOf
      rw [hm.others]
      · intro heq
        exact hm.new c (heq ▸ hp')
      · intro hq
        obtain ⟨prim, _, hprim⟩ := hm.frame p' hq
        have hlen := congrArg List.length (hprim.alone (List.mem_append_left _ hp'))
        have hpos := List.length_pos_of_mem hp'
        simp only [List.length_append, List.length_singleton] at hlen
        omega
    · rw [List.map_singleton, jobOf_linked]
      unfold jobOf
      rw [hm.self]
      exact rfl
  · intro p' hp'
    rw [List.mem_singleton.mp hp']
    exact hm.known
  · intro p' hnone hidx
    have hne : p' ≠ p := by
      intro heq
      rcases hm.known with hq | hk
      · obtain ⟨_, prim, hprim, _⟩ := h.frame p hq
        rw [heq, hprim] at hnone
        cases hnone
      · rw [heq] at hidx
        omega
    have hframe : s.frame ≠ some p' := by
      intro hq
      obtain ⟨_, prim, hprim, _⟩ := h.frame p' hq
      rw [hnone] at hprim
      cases hprim
    change linked tasks (pend c).getLast? p p' = none
    rw [linked_of_ne, hm.others p' hne hframe]
    · exact hnone
    · intro hlast
      exact h.alloc (List.mem_of_getLast? hlast) hnone

/-- The primary of a subtask counts it. -/
def bumped (tasks : TaskPtr → Option Task) (primary : Option TaskPtr) : TaskPtr → Option Task :=
  match primary with
  | none => tasks
  | some q => update tasks q ((tasks q).map fun prim => { prim with ref := prim.ref + 1 })

theorem bumped_of_ne {tasks : TaskPtr → Option Task} {primary : Option TaskPtr} {p : TaskPtr}
    (h : primary ≠ some p) : bumped tasks primary p = tasks p := by
  unfold bumped
  split
  · rfl
  · next q =>
    apply update_of_ne
    intro heq
    exact h (by rw [heq])

theorem made_heap (h : Loaded pend c s) {task : Task}
    (hready : Ready s.frame c (.heap s.fresh) task) (hnext : task.next = none)
    (halone : ∀ q, s.frame = some q → q ∉ pend c) :
    Made pend c s (update (bumped s.tasks s.frame) (.heap s.fresh) (some task)) (s.fresh + 1)
      (.heap s.fresh) task where
  self := update_self _ _ _
  ready := hready
  next := hnext
  new := by
    intro d hmem
    exact h.alloc hmem (h.fresh s.fresh (Nat.le_refl _)).1
  others := by
    intro p' hne hf
    exact (update_of_ne hne _ _).trans (bumped_of_ne hf)
  frame := by
    intro q hq
    obtain ⟨⟨n, rfl⟩, prim, hprim, hp⟩ := h.frame q hq
    have hne : ∀ m, (TaskPtr.heap m : TaskPtr) ≠ .stack n := by
      intro m heq
      cases heq
    have hq' := halone _ hq
    refine ⟨{ prim with ref := prim.ref + 1 }, ?_, ?_, hp.code, ?_, fun _ => hp.released hq'⟩
    · rw [update_of_ne (Ne.symm (hne _))]
      unfold bumped
      rw [hq]
      change update s.tasks (.stack n) _ (.stack n) = _
      rw [update_self, hprim]
      exact rfl
    · change prim.ref + 1 = _
      rw [hp.ref, List.filter_append, List.length_append, List.filter_cons_of_pos (by simp)]
      exact (Int.natCast_add _ 1).symm
    · intro hmem
      rcases List.mem_append.mp hmem with hmem | hmem
      · exact absurd hmem hq'
      · exact absurd (List.mem_singleton.mp hmem).symm (hne _)
  unused := by
    intro n hn
    have hnone := h.fresh n (by omega)
    have hne : (TaskPtr.heap n : TaskPtr) ≠ .heap s.fresh := by
      intro heq
      have hidx := congrArg TaskPtr.index heq
      simp only [TaskPtr.index] at hidx
      omega
    have hframe : ∀ p, s.tasks p = none → s.frame ≠ some p := by
      intro p hp hq
      obtain ⟨_, prim, hprim, _⟩ := h.frame p hq
      rw [hp] at hprim
      cases hprim
    constructor
    · rw [update_of_ne hne, bumped_of_ne (hframe _ hnone.1)]
      exact hnone.1
    · rw [update_of_ne TaskPtr.noConfusion, bumped_of_ne (hframe _ hnone.2)]
      exact hnone.2
  known := Or.inr ⟨Nat.le_refl _, Nat.lt_succ_self _⟩
  le := Nat.le_succ _

/-! The loops. -/

/-- A task of `write_split`, once it is linked but for its `next`. -/
def writeTask (c : CtxPtr) (ch : WriteChunk) : Task :=
  { Task.new .writeCommand ch.off ch.len 0 with buf := ch.buf, ctx := some c }

def readTask (c : CtxPtr) (frame : Option TaskPtr) (ch : ReadChunk) : Task :=
  { Task.new .readCommand ch.off ch.len (if frame = none then 0 else 1) with
    primary := frame
    ctx := some c
    fillCb := some ch.fill }

theorem append_again {s : Sys} {tasks : TaskPtr → Option Task} {p : TaskPtr} {task : Task} {n : Nat}
    (c : CtxPtr) (f : Task → Task) :
    (Sys.task { s with tasks := update tasks p (some task), fresh := n } p >>= fun t =>
      iocAppendTask (Sys.setTask { s with tasks := update tasks p (some task), fresh := n } p (f t))
        c p) = iocAppendTask { s with tasks := update tasks p (some (f task)), fresh := n } c p := by
  rw [Sys.task_some (update_self _ _ _)]
  change iocAppendTask _ c p = _
  unfold Sys.setTask
  rw [update_idem]

theorem addWriteChunk_ok {ch : WriteChunk} (h : Loaded pend c s) (hframe : s.frame = none)
    (hpos : 0 < ch.len) (hle : ch.len ≤ splitSize) (hlt : (pend c).length + 1 < 2 ^ 31) :
    ∃ s', addWriteChunk c s ch = .ok s' ∧ Extends pend c s [.heap s.fresh] [ch.job] s' := by
  have hready : Ready s.frame c (.heap s.fresh) (writeTask c ch) := by
    rw [hframe]
    exact ⟨rfl, hpos, hle, IOCommand.noConfusion, rfl, ⟨rfl, rfl, s.fresh, rfl⟩,
      fun _ => IOCommand.noConfusion⟩
  have hmade := made_heap h hready rfl (by simp [hframe])
  have hbump : bumped s.tasks s.frame = s.tasks := by
    rw [hframe]
    exact rfl
  rw [hbump] at hmade
  have hadd : addWriteChunk c s ch = iocAppendTask { s with
      tasks := update s.tasks (.heap s.fresh) (some (writeTask c ch))
      fresh := s.fresh + 1 } c (.heap s.fresh) := by
    unfold addWriteChunk newTask
    exact append_again c fun task => { task with buf := ch.buf, ctx := some c }
  rw [hadd]
  exact hmade.extends h hlt

theorem addReadChunk_heap {ch : ReadChunk} {alignedLen : Nat} (h : Loaded pend c s)
    (hlong : s.frame ≠ none → splitSize < alignedLen) (halone : ∀ q, s.frame = some q → q ∉ pend c)
    (hpos : 0 < ch.len) (hle : ch.len ≤ splitSize) (hfits : s.frame = none → ch.Fits)
    (hlt : (pend c).length + 1 < 2 ^ 31) :
    ∃ s', addReadChunk c alignedLen s.frame s ch = .ok s' ∧
      Extends pend c s [.heap s.fresh] [ch.job] s' := by
  have hready : Ready s.frame c (.heap s.fresh) (readTask c s.frame ch) := by
    refine ⟨rfl, hpos, hle, IOCommand.noConfusion, rfl, ?_,
      fun hframe _ => ⟨ch.fill, rfl, hfits hframe⟩⟩
    cases hq : s.frame with
    | none => exact ⟨rfl, rfl, s.fresh, rfl⟩
    | some q =>
      obtain ⟨⟨n, rfl⟩, _⟩ := h.frame q hq
      exact ⟨rfl, rfl, Or.inr ⟨TaskPtr.noConfusion, rfl, s.fresh, rfl⟩⟩
  have hmade := made_heap h hready rfl halone
  have hchunk : ∀ frame, s.frame = frame → chunkTask s alignedLen frame ch =
      .ok (.heap s.fresh, { s with
        tasks := update (bumped s.tasks frame) (.heap s.fresh)
          (some { Task.new .readCommand ch.off ch.len (if frame = none then 0 else 1) with
            primary := frame })
        fresh := s.fresh + 1 }) := by
    intro frame hframe
    cases frame with
    | none => rfl
    | some q =>
      obtain ⟨⟨n, hn⟩, prim, hprim, hp⟩ := h.frame q hframe
      have hnot : ¬ alignedLen ≤ splitSize := by
        have hlt' := hlong (by rw [hframe]; exact Option.some_ne_none q)
        omega
      have href : int32 (prim.ref + 1) = prim.ref + 1 := by
        rw [hp.ref]
        have hfilter := List.length_filter_le (fun x => decide (x ≠ q)) (pend c)
        exact int32_of_lt (by omega) (by omega)
      have hbump : bumped s.tasks (some q) =
          update s.tasks q (some { prim with ref := prim.ref + 1 }) := by
        unfold bumped
        simp only [hprim, Option.map_some]
      have hnew : chunkTask s alignedLen (some q) ch =
          newTask s .readCommand ch.off ch.len (some q) := if_neg hnot
      rw [hnew, hbump]
      unfold newTask
      simp only [Sys.task_some hprim]
      change Except.ok _ = _
      rw [href, hp.code]
      exact rfl
  have hadd : addReadChunk c alignedLen s.frame s ch = iocAppendTask { s with
      tasks := update (bumped s.tasks s.frame) (.heap s.fresh) (some (readTask c s.frame ch))
      fresh := s.fresh + 1 } c (.heap s.fresh) := by
    unfold addReadChunk
    rw [hchunk s.frame rfl]
    exact append_again c fun task => { task with ctx := some c, fillCb := some ch.fill }
  rw [hadd]
  exact hmade.extends h hlt

theorem addReadChunk_frame {q : TaskPtr} {off len : Nat} {fill : FillCb} (h : Loaded pend c s)
    (hq : s.frame = some q) (hempty : pend c = [])
    (hopen : s.tasks q = some (Task.new .readCommand off len 1)) (hpos : 0 < len)
    (hle : len ≤ splitSize) :
    ∃ s', addReadChunk c len s.frame s ⟨off, len, fill⟩ = .ok s' ∧
      Extends pend c s [q] [ReadChunk.job ⟨off, len, fill⟩] s' := by
  obtain ⟨⟨n, hn⟩, prim, hprim, hp⟩ := h.frame q hq
  rw [hopen] at hprim
  obtain rfl := Option.some.inj hprim
  have hmade : Made pend c s (update s.tasks q (some { Task.new .readCommand off len 1 with
      ctx := some c, fillCb := some fill })) s.fresh q { Task.new .readCommand off len 1 with
      ctx := some c, fillCb := some fill } := by
    refine ⟨update_self _ _ _, ?_, rfl, ?_, ?_, ?_, ?_, Or.inl hq, Nat.le_refl _⟩
    · rw [hq]
      exact ⟨rfl, hpos, hle, IOCommand.noConfusion, rfl, ⟨rfl, rfl, Or.inl ⟨rfl, rfl⟩⟩, nofun⟩
    · intro d hmem
      by_cases hd : d = c
      · rw [hd, hempty] at hmem
        cases hmem
      · obtain ⟨task, _, hready⟩ := h.waits d q hmem
        have hkind := hready.kind
        rw [if_neg hd] at hkind
        obtain ⟨_, _, m, hm⟩ := hkind
        rw [hn] at hm
        cases hm
    · intro p' hne _
      exact update_of_ne hne _ _
    · intro q' hq'
      rw [hq] at hq'
      obtain rfl := Option.some.inj hq'
      rw [hempty]
      refine ⟨_, update_self _ _ _, ?_, rfl, fun _ => rfl, fun hnot => absurd (by simp) hnot⟩
      rw [List.nil_append, List.filter_cons_of_neg (by simp)]
      exact rfl
    · intro m hm
      have hnone := h.fresh m hm
      exact ⟨update_unused hopen hnone.1, update_unused hopen hnone.2⟩
  have hchunk : chunkTask s len (some q) ⟨off, len, fill⟩ = .ok (q, s) := if_pos hle
  have hadd : addReadChunk c len s.frame s ⟨off, len, fill⟩ = iocAppendTask { s with
      tasks := update s.tasks q (some { Task.new .readCommand off len 1 with
        ctx := some c, fillCb := some fill })
      fresh := s.fresh } c q := by
    unfold addReadChunk
    rw [hq, hchunk]
    change (do
      let task ← Sys.task s q
      _) = _
    rw [Sys.task_some hopen, ← hq]
    exact rfl
  rw [hadd]
  exact hmade.extends h (by rw [hempty]; decide)

theorem fold_chunks {α : Type} {add : Sys → α → Except Fault Sys} {job : α → Job} {cs : List α}
    (hadd : ∀ pend s, ∀ ch ∈ cs, Loaded pend c s → s.frame = s0.frame →
      (∀ q, s.frame = some q → q ∉ pend c) → (pend c).length + 1 < 2 ^ 31 →
      ∃ s', add s ch = .ok s' ∧ Extends pend c s [.heap s.fresh] [job ch] s')
    (h : Loaded pend c s) (hframe : s.frame = s0.frame) (halone : ∀ q, s.frame = some q → q ∉ pend c)
    (hlt : (pend c).length + cs.length < 2 ^ 31) :
    ∃ ps s', cs.foldlM add s = .ok s' ∧ Extends pend c s ps (cs.map job) s' := by
  induction cs generalizing pend s with
  | nil => exact ⟨[], s, rfl, Extends.refl h⟩
  | cons ch cs ih =>
    rw [List.length_cons] at hlt
    obtain ⟨s1, hs1, hext⟩ := hadd pend s ch List.mem_cons_self h hframe halone (by omega)
    have hpend : (update pend c (pend c ++ [.heap s.fresh]) c).length = (pend c).length + 1 := by
      rw [update_self, List.length_append, List.length_singleton]
    obtain ⟨ps, s', hs', hext'⟩ := ih
      (fun pend s ch' hch' => hadd pend s ch' (List.mem_cons_of_mem ch hch')) hext.loaded
      (hext.frame_eq.trans hframe)
      (by
        intro q hq hmem
        rw [hext.frame_eq] at hq
        rw [update_self] at hmem
        rcases List.mem_append.mp hmem with hmem | hmem
        · exact halone q hq hmem
        · obtain ⟨n, hn⟩ := (h.frame q hq).1
          rw [hn] at hmem
          cases List.mem_singleton.mp hmem)
      (by omega)
    refine ⟨_, s', ?_, hext.trans hext'⟩
    rw [List.foldlM_cons, hs1]
    exact hs'

theorem writeSplit_ok {off len buf : Nat} (h : Loaded pend c s) (hframe : s.frame = none)
    (hlt : (pend c).length + (writeChunks off len buf).length < 2 ^ 31) :
    ∃ ps s', writeSplit s off len buf c = .ok s' ∧
      Extends pend c s ps ((writeChunks off len buf).map WriteChunk.job) s' := by
  apply fold_chunks _ h rfl (by simp [hframe]) hlt
  intro pend' s' ch hch hl hf _ hlt'
  obtain ⟨hpos, hle⟩ := writeSplitLoop_size _ _ _ _ ch hch
  exact addWriteChunk_ok hl (hf.trans hframe) hpos hle hlt'

theorem makeReadTasks_ok {off len buf origOff origLen : Nat} {cs : List ReadChunk}
    (h : Loaded pend c s) (hcs : readChunks off buf len origOff origLen = some cs)
    (hlt : (pend c).length + cs.length < 2 ^ 31) (hfits : s.frame = none → ∀ ch ∈ cs, ch.Fits)
    (hopen : ∀ q, s.frame = some q →
      pend c = [] ∧ s.tasks q = some (Task.new .readCommand off len 1)) :
    ∃ ps s', makeReadTasks s off c buf len s.frame origOff origLen = .ok s' ∧
      Extends pend c s ps (cs.map ReadChunk.job) s' := by
  unfold makeReadTasks
  rw [hcs]
  by_cases hsingle : s.frame ≠ none ∧ len ≤ splitSize
  · obtain ⟨hframe, hle⟩ := hsingle
    obtain ⟨q, hq⟩ := Option.ne_none_iff_exists'.mp hframe
    obtain ⟨hempty, htask⟩ := hopen q hq
    have hsize := readChunks_size hcs
    rcases readChunks_single hcs hle (by omega) with rfl | ⟨fill, rfl⟩
    · exact ⟨[], s, rfl, Extends.refl h⟩
    · have hpos : 0 < len := (hsize _ List.mem_cons_self).1
      obtain ⟨s', hs', hext⟩ := addReadChunk_frame h hq hempty htask hpos hle
      refine ⟨[q], s', ?_, hext⟩
      change (do
        let s' ← addReadChunk c len s.frame s ⟨off, len, fill⟩
        _) = _
      rw [hs']
      exact rfl
  · apply fold_chunks _ h rfl _ hlt
    · intro pend' s' ch hch hl hf halone hlt'
      obtain ⟨hpos, hle⟩ := readChunks_size hcs ch hch
      rw [← hf]
      apply addReadChunk_heap hl _ halone hpos hle _ hlt'
      · intro hframe
        rw [hf] at hframe
        by_contra hlong
        exact hsingle ⟨hframe, by omega⟩
      · intro hframe
        exact hfits (hf.symm.trans hframe) ch hch
    · intro q hq
      rw [(hopen q hq).1]
      exact List.not_mem_nil

end

end LockdepSpdk.Blk
