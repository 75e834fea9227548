import LockdepSpdk.Blk.Accounting

/-!
# The tasks of a read

The loop of `make_read_tasks` by its variables, and the tasks it leaves behind:
which bytes of the device each of them reads, and where its callback copies them.
-/

namespace LockdepSpdk.Blk

set_option autoImplicit false

open Function ByteRange Linked

/-! The variables of the loop. -/

/-- The variables at the head of a turn. -/
structure ReadTurn where
  begin : Nat
  alignedEnd : Nat
  tmpOff : Nat
  remainOrigLen : Nat
  buf : Nat

namespace ReadTurn

def readSize (t : ReadTurn) : Nat := min (sub64 t.alignedEnd t.begin) splitSize

def tmpLen (t : ReadTurn) : Nat := min t.remainOrigLen (sub64 t.readSize t.tmpOff)

def chunk (t : ReadTurn) : ReadChunk := ⟨t.begin, t.readSize, ⟨t.buf, t.tmpOff, t.tmpLen⟩⟩

def next (t : ReadTurn) : ReadTurn where
  begin := add64 t.begin splitSize
  alignedEnd := t.alignedEnd
  tmpOff := 0
  remainOrigLen := sub64 t.remainOrigLen t.tmpLen
  buf := t.buf + t.tmpLen

theorem next_begin (t : ReadTurn) : t.next.begin = add64 t.begin splitSize := rfl

/-- By the field itself: `rfl` alone compares the two turns first, and their sums one by one. -/
theorem next_alignedEnd (t : ReadTurn) : t.next.alignedEnd = t.alignedEnd := by
  obtain ⟨begin, alignedEnd, tmpOff, remainOrigLen, buf⟩ := t
  exact Eq.refl alignedEnd

theorem next_tmpOff (t : ReadTurn) : t.next.tmpOff = 0 := rfl

theorem next_remainOrigLen (t : ReadTurn) :
    t.next.remainOrigLen = sub64 t.remainOrigLen t.tmpLen := rfl

theorem next_buf (t : ReadTurn) : t.next.buf = t.buf + t.tmpLen := rfl

/-- The sum and the three differences of a turn are those of the numbers. -/
structure NoWrap (t : ReadTurn) : Prop where
  left : t.begin ≤ t.alignedEnd
  useful : t.tmpOff ≤ t.readSize
  remain : t.tmpLen ≤ t.remainOrigLen
  advance : t.begin + splitSize < 2 ^ 64

/-- What is wanted of the rest of the range lies in it, and what is skipped in its first task. -/
structure Inv (t : ReadTurn) : Prop where
  small : t.alignedEnd < 2 ^ 63
  skip : t.tmpOff = 0 ∨ t.tmpOff < min (t.alignedEnd - t.begin) splitSize
  within : t.tmpOff + t.remainOrigLen ≤ t.alignedEnd - t.begin

theorem Inv.readSize_eq {t : ReadTurn} (h : t.Inv) (hlt : t.begin < t.alignedEnd) :
    t.readSize = min (t.alignedEnd - t.begin) splitSize := by
  have hsmall := h.small
  unfold readSize
  rw [sub64_of_le (by omega) (by omega)]

theorem Inv.noWrap {t : ReadTurn} (h : t.Inv) (hlt : t.begin < t.alignedEnd) : t.NoWrap := by
  have hsplit : splitSize = 131072 := rfl
  have hsize := h.readSize_eq hlt
  obtain ⟨hsmall, hskip, hwithin⟩ := h
  exact ⟨by omega, by omega, Nat.min_le_left _ _, by omega⟩

theorem Inv.turn {t : ReadTurn} (h : t.Inv) (hlt : t.begin < t.alignedEnd) : t.next.Inv := by
  have hsplit : splitSize = 131072 := rfl
  have hsize := h.readSize_eq hlt
  obtain ⟨_, huseful, hremain, hadvance⟩ := h.noWrap hlt
  obtain ⟨hsmall, hskip, hwithin⟩ := h
  have hlen : t.tmpLen = min t.remainOrigLen (t.readSize - t.tmpOff) := by
    unfold tmpLen
    rw [sub64_of_le huseful (by omega)]
  have hrest : sub64 t.remainOrigLen t.tmpLen = t.remainOrigLen - t.tmpLen :=
    sub64_of_le hremain (by omega)
  constructor
  · rw [next_alignedEnd]
    exact hsmall
  · exact Or.inl t.next_tmpOff
  · rw [next_tmpOff, next_remainOrigLen, next_alignedEnd, next_begin, hrest, add64_of_lt hadvance]
    omega

end ReadTurn

def ReadTurn.loop (t : ReadTurn) (fuel : Nat) : Option (List ReadChunk) :=
  makeReadLoop fuel t.begin t.alignedEnd t.tmpOff t.remainOrigLen t.buf

theorem ReadTurn.loop_cons {t : ReadTurn} {fuel : Nat} {c : ReadChunk} {cs : List ReadChunk}
    (h : t.loop fuel = some (c :: cs)) (hinv : t.Inv) :
    t.begin < t.alignedEnd ∧ c = t.chunk ∧ ∃ fuel', t.next.loop fuel' = some cs := by
  cases fuel with
  | zero => cases h
  | succ fuel =>
    unfold ReadTurn.loop at h
    by_cases hlt : t.begin < t.alignedEnd
    · have hsize := hinv.readSize_eq hlt
      simp only [makeReadLoop] at h
      rw [if_pos hlt, ← hsize] at h
      split at h
      · cases h
      · next cs' hcs' =>
        obtain ⟨hc, hcs⟩ := List.cons.inj (Option.some.inj h)
        subst hcs
        refine ⟨hlt, hc.symm, fuel, ?_⟩
        unfold ReadTurn.loop
        rw [next_begin, next_alignedEnd, next_tmpOff, next_remainOrigLen, next_buf]
        exact hcs'
    · rw [makeReadLoop_done (by omega)] at h
      cases h

theorem ReadTurn.loop_turn {t : ReadTurn} {fuel k : Nat} {c : ReadChunk} {cs : List ReadChunk}
    (h : t.loop fuel = some cs) (hinv : t.Inv) (hk : cs[k]? = some c) :
    c = (ReadTurn.next^[k] t).chunk ∧ (ReadTurn.next^[k] t).NoWrap := by
  induction k generalizing fuel t cs with
  | zero =>
    cases cs with
    | nil => cases hk
    | cons d cs =>
      obtain ⟨hlt, hd, _⟩ := loop_cons h hinv
      rw [List.getElem?_cons_zero, hd] at hk
      rw [Function.iterate_zero_apply]
      exact ⟨(Option.some.inj hk).symm, hinv.noWrap hlt⟩
  | succ k ih =>
    cases cs with
    | nil => cases hk
    | cons d cs =>
      obtain ⟨hlt, _, fuel', htail⟩ := loop_cons h hinv
      rw [List.getElem?_cons_succ] at hk
      rw [Function.iterate_succ_apply]
      exact ih htail (hinv.turn hlt) hk

def firstTurn (alignedOff buf alignedLen origOff origLen : Nat) : ReadTurn where
  begin := alignedOff
  alignedEnd := add64 alignedOff alignedLen
  tmpOff := sub64 origOff alignedOff
  remainOrigLen := origLen
  buf := buf

def turnAt (alignedOff buf alignedLen origOff origLen k : Nat) : ReadTurn :=
  ReadTurn.next^[k] (firstTurn alignedOff buf alignedLen origOff origLen)

theorem readChunks_turn {alignedOff buf alignedLen origOff origLen k : Nat} {cs : List ReadChunk}
    {c : ReadChunk} (h : readChunks alignedOff buf alignedLen origOff origLen = some cs)
    (hend : alignedOff + alignedLen < 2 ^ 63) (hle : alignedOff ≤ origOff)
    (hskip : origOff - alignedOff < min alignedLen splitSize)
    (horig : origOff + origLen ≤ alignedOff + alignedLen) (hk : cs[k]? = some c) :
    c = (turnAt alignedOff buf alignedLen origOff origLen k).chunk ∧
      (turnAt alignedOff buf alignedLen origOff origLen k).NoWrap := by
  have hlast : add64 alignedOff alignedLen = alignedOff + alignedLen := add64_of_lt (by omega)
  have hfirst : sub64 origOff alignedOff = origOff - alignedOff := sub64_of_le hle (by omega)
  apply ReadTurn.loop_turn (t := firstTurn alignedOff buf alignedLen origOff origLen) h _ hk
  unfold firstTurn
  rw [hlast, hfirst]
  exact ⟨hend, Or.inr (by simp only; omega), by simp only; omega⟩

/-! The tasks in memory. -/

structure Reads (c : CtxPtr) (primary : Option TaskPtr) (ch : ReadChunk) (task : Task) : Prop where
  command : task.command = .readCommand
  offset : task.offset = ch.off
  len : task.len = ch.len
  fill : task.fillCb = some ch.fill
  ctx : task.ctx = some c
  primary : task.primary = primary

theorem Reads.update {c : CtxPtr} {primary : Option TaskPtr} {ch : ReadChunk} {task : Task}
    (h : Reads c primary ch task) (n : Option TaskPtr) (r : Int) :
    Reads c primary ch { task with next := n, ref := r } :=
  ⟨h.command, h.offset, h.len, h.fill, h.ctx, h.primary⟩

/-- The context can take another task, and the primary has `r` of them. -/
structure Extendable (s : Sys) (c : CtxPtr) (primary : Option TaskPtr) (r : Nat) : Prop where
  last : ∀ q, (s.ctxs c).nvmeTaskLast = some q → s.tasks q ≠ none
  free : ∀ n, s.fresh ≤ n → s.tasks (.heap n) = none
  primary : ∀ q, primary = some q →
    (∃ n, q = .stack n) ∧ ∃ prim, s.tasks q = some prim ∧ prim.ref = r

def subtask (c : CtxPtr) (primary : Option TaskPtr) (code : Int) (ch : ReadChunk) : Task :=
  { Task.new .readCommand ch.off ch.len code with
    primary := primary
    ctx := some c
    fillCb := some ch.fill }

theorem subtask_reads (c : CtxPtr) (primary : Option TaskPtr) (code : Int) (ch : ReadChunk) :
    Reads c primary ch (subtask c primary code ch) := ⟨rfl, rfl, rfl, rfl, rfl, rfl⟩

def grown (s : Sys) (c : CtxPtr) (primary : Option TaskPtr) (task : Task) : Sys :=
  { s with
    tasks := linked (update (bumped s.tasks primary) (.heap s.fresh) (some task))
      (s.ctxs c).nvmeTaskLast (.heap s.fresh)
    fresh := s.fresh + 1
    ctxs := update s.ctxs c { s.ctxs c with
      nvmeTaskFirst := (s.ctxs c).nvmeTaskFirst.orElse fun _ => some (.heap s.fresh)
      nvmeTaskLast := some (.heap s.fresh)
      numPending := int32 ((s.ctxs c).numPending + 1) }
    log := .append c (.heap s.fresh) :: s.log }

section
variable {s : Sys} {c : CtxPtr} {primary : Option TaskPtr} {r : Nat} {ch : ReadChunk} {p : TaskPtr}
  {task t : Task}

theorem linkLast_ok {last : Option TaskPtr} (h : ∀ q, last = some q → s.tasks q ≠ none) :
    linkLast s last p = .ok { s with tasks := linked s.tasks last p } := by
  cases last with
  | none => rfl
  | some q =>
    obtain ⟨task, htask⟩ := Option.ne_none_iff_exists'.mp (h q rfl)
    rw [linked_self htask]
    simp only [linkLast, Sys.task_some htask]
    exact rfl

theorem iocAppendTask_linked (h : ∀ q, (s.ctxs c).nvmeTaskLast = some q → s.tasks q ≠ none) :
    iocAppendTask s c p = .ok { s with
      tasks := linked s.tasks (s.ctxs c).nvmeTaskLast p
      ctxs := update s.ctxs c { s.ctxs c with
        nvmeTaskFirst := (s.ctxs c).nvmeTaskFirst.orElse fun _ => some p
        nvmeTaskLast := some p
        numPending := int32 ((s.ctxs c).numPending + 1) }
      log := .append c p :: s.log } := by
  have hlink : linkLast s (s.ctxs c).nvmeTaskLast p =
      .ok { s with tasks := linked s.tasks (s.ctxs c).nvmeTaskLast p } := linkLast_ok h
  unfold iocAppendTask
  simp only [hlink]
  exact rfl

theorem bumped_self {tasks : TaskPtr → Option Task} {prim : Task} {q : TaskPtr}
    (h : tasks q = some prim) :
    bumped tasks (some q) = update tasks q (some { prim with ref := prim.ref + 1 }) := by
  unfold bumped
  simp only [h, Option.map_some]

theorem Extendable.ne_fresh (h : Extendable s c primary r) {q : TaskPtr} (hq : primary = some q) :
    q ≠ .heap s.fresh := by
  obtain ⟨⟨n, rfl⟩, _⟩ := h.primary q hq
  exact TaskPtr.noConfusion

theorem Extendable.last_ne_fresh (h : Extendable s c primary r) :
    (s.ctxs c).nvmeTaskLast ≠ some (.heap s.fresh) :=
  fun heq => h.last _ heq (h.free s.fresh (Nat.le_refl _))

theorem grown_kept (hp : p ≠ .heap s.fresh) (ht : s.tasks p = some t) :
    (grown s c primary task).tasks p = some { t with
      next := if (s.ctxs c).nvmeTaskLast = some p then some (.heap s.fresh) else t.next
      ref := if primary = some p then t.ref + 1 else t.ref } := by
  have hbump : update (bumped s.tasks primary) (.heap s.fresh) (some task) p =
      some { t with ref := if primary = some p then t.ref + 1 else t.ref } := by
    rw [update_of_ne hp]
    by_cases hq : primary = some p
    · rw [if_pos hq, hq, bumped_self ht, update_self]
    · rw [if_neg hq, bumped_of_ne hq, ht]
  unfold grown
  simp only
  by_cases hl : (s.ctxs c).nvmeTaskLast = some p
  · rw [if_pos hl, hl, linked_self hbump, update_self]
  · rw [if_neg hl, linked_of_ne hl, hbump]

theorem grown_new (h : Extendable s c primary r) :
    (grown s c primary task).tasks (.heap s.fresh) = some task := by
  unfold grown
  simp only
  rw [linked_of_ne h.last_ne_fresh, update_self]

theorem grown_none (h : Extendable s c primary r) (hp : p ≠ .heap s.fresh) (ht : s.tasks p = none) :
    (grown s c primary task).tasks p = none := by
  have hlast : (s.ctxs c).nvmeTaskLast ≠ some p := fun hl => h.last p hl ht
  have hprim : primary ≠ some p := by
    intro hq
    obtain ⟨_, prim, hprim, _⟩ := h.primary p hq
    rw [ht] at hprim
    cases hprim
  unfold grown
  simp only
  rw [linked_of_ne hlast, update_of_ne hp, bumped_of_ne hprim, ht]

theorem grown_last : ((grown s c primary task).ctxs c).nvmeTaskLast = some (.heap s.fresh) := by
  unfold grown
  simp only [update_self]

theorem Extendable.grown (h : Extendable s c primary r) (task : Task) :
    Extendable (grown s c primary task) c primary (r + 1) where
  last := by
    intro q hq
    rw [grown_last] at hq
    obtain rfl := Option.some.inj hq
    rw [grown_new h]
    exact Option.some_ne_none task
  free := by
    intro n hn
    have hlt : s.fresh + 1 ≤ n := hn
    apply grown_none h _ (h.free n (by omega))
    intro heq
    have hidx := congrArg TaskPtr.index heq
    simp only [TaskPtr.index] at hidx
    omega
  primary := by
    intro q hq
    obtain ⟨hstack, prim, hprim, href⟩ := h.primary q hq
    refine ⟨hstack, _, grown_kept (h.ne_fresh hq) hprim, ?_⟩
    simp only
    rw [if_pos hq, href]
    exact (Int.natCast_add r 1).symm

theorem addReadChunk_grown {alignedLen : Nat} (ch : ReadChunk) (h : Extendable s c primary r)
    (hlong : primary ≠ none → splitSize < alignedLen) (hr : r + 1 < 2 ^ 31) :
    ∃ task, Reads c primary ch task ∧ task.next = none ∧
      addReadChunk c alignedLen primary s ch = .ok (grown s c primary task) := by
  obtain ⟨code, hchunk⟩ : ∃ code, chunkTask s alignedLen primary ch =
      .ok (.heap s.fresh, { s with
        tasks := update (bumped s.tasks primary) (.heap s.fresh)
          (some { Task.new .readCommand ch.off ch.len code with primary := primary })
        fresh := s.fresh + 1 }) := by
    cases hq : primary with
    | none => exact ⟨0, rfl⟩
    | some q =>
      obtain ⟨_, prim, hprim, href⟩ := h.primary q hq
      have hnot : ¬ alignedLen ≤ splitSize := by
        have hlt := hlong (by rw [hq]; exact Option.some_ne_none q)
        omega
      have hcount : int32 (prim.ref + 1) = prim.ref + 1 := by
        rw [href]
        exact int32_of_lt (by omega) (by omega)
      have hnew : chunkTask s alignedLen (some q) ch =
          newTask s .readCommand ch.off ch.len (some q) := if_neg hnot
      refine ⟨prim.returnCode, ?_⟩
      rw [hnew, bumped_self hprim]
      unfold newTask
      simp only [Sys.task_some hprim]
      change Except.ok _ = _
      rw [hcount]
      exact rfl
  refine ⟨subtask c primary code ch, subtask_reads c primary code ch, rfl, ?_⟩
  have hadd : addReadChunk c alignedLen primary s ch = iocAppendTask { s with
      tasks := update (bumped s.tasks primary) (.heap s.fresh) (some (subtask c primary code ch))
      fresh := s.fresh + 1 } c (.heap s.fresh) := by
    unfold addReadChunk
    rw [hchunk]
    exact append_again c fun task => { task with ctx := some c, fillCb := some ch.fill }
  rw [hadd]
  apply iocAppendTask_linked
  intro q hq
  change update (bumped s.tasks primary) _ _ q ≠ none
  by_cases hf : q = .heap s.fresh
  · subst hf
    rw [update_self]
    exact Option.some_ne_none _
  · obtain ⟨t, ht⟩ := Option.ne_none_iff_exists'.mp (h.last q hq)
    rw [update_of_ne hf]
    by_cases hprim : primary = some q
    · rw [hprim, bumped_self ht, update_self]
      exact Option.some_ne_none _
    · rw [bumped_of_ne hprim, ht]
      exact Option.some_ne_none t

def newTasks (fresh n : Nat) : List TaskPtr := (List.range' fresh n).map TaskPtr.heap

theorem newTasks_succ (fresh n : Nat) :
    newTasks fresh (n + 1) = .heap fresh :: newTasks (fresh + 1) n := by
  unfold newTasks
  rw [List.range'_succ, List.map_cons]

def Old (s : Sys) (p : TaskPtr) : Prop := ∀ n, p = .heap n → n < s.fresh

theorem Old.ne_fresh (h : Old s p) : p ≠ .heap s.fresh :=
  fun heq => Nat.lt_irrefl _ (h _ heq)

theorem Old.grown (h : Old s p) (task : Task) : Old (grown s c primary task) p :=
  fun n hn => Nat.lt_succ_of_lt (h n hn)

theorem old_fresh (task : Task) : Old (grown s c primary task) (.heap s.fresh) := by
  intro n hn
  cases hn
  exact Nat.lt_succ_self s.fresh

/-- `s'` is `s` with the new tasks `ps` of the chunks `cs` behind the last one of `c`. -/
structure Grown (c : CtxPtr) (primary : Option TaskPtr) (s : Sys) (cs : List ReadChunk)
    (ps : List TaskPtr) (s' : Sys) : Prop where
  made : List.Forall₂ (fun p ch => ∃ task, s'.tasks p = some task ∧ Reads c primary ch task) ps cs
  chain : Chain (nextOf s'.tasks) ps.head? ps
  kept : ∀ p t, Old s p → s.tasks p = some t → s'.tasks p = some { t with
    next := if (s.ctxs c).nvmeTaskLast = some p then ps.head?.orElse fun _ => t.next else t.next
    ref := if primary = some p then t.ref + cs.length else t.ref }
  last : (s'.ctxs c).nvmeTaskLast = ps.getLast?.orElse fun _ => (s.ctxs c).nvmeTaskLast
  log : s'.log = (ps.map (Event.append c)).reverse ++ s.log

theorem Grown.refl : Grown c primary s [] [] s where
  made := .nil
  chain := .nil
  kept := by
    intro p t _ ht
    simp [ht]
  last := rfl
  log := rfl

theorem Grown.cons {cs : List ReadChunk} {ps : List TaskPtr} {s' : Sys}
    (h : Extendable s c primary r) (hreads : Reads c primary ch task) (hnext : task.next = none)
    (hrest : Grown c primary (grown s c primary task) cs ps s') :
    Grown c primary s (ch :: cs) (.heap s.fresh :: ps) s' := by
  have hself := hrest.kept (.heap s.fresh) task (old_fresh task) (grown_new h)
  have hnotprim : primary ≠ some (.heap s.fresh) := fun hq => h.ne_fresh hq rfl
  rw [grown_last, if_pos rfl, if_neg hnotprim] at hself
  refine ⟨?_, ?_, ?_, ?_, ?_⟩
  · exact .cons ⟨_, hself, hreads.update _ _⟩ hrest.made
  · have hhead : nextOf s'.tasks (.heap s.fresh) = ps.head? := by
      unfold nextOf
      rw [hself, hnext]
      cases ps <;> rfl
    apply Chain.cons
    rw [hhead]
    exact hrest.chain
  · intro p t hold ht
    have hkept := hrest.kept p _ (hold.grown task) (grown_kept hold.ne_fresh ht)
    have hother : ¬ some (TaskPtr.heap s.fresh) = some p :=
      fun heq => hold.ne_fresh (Option.some.inj heq).symm
    rw [grown_last, if_neg hother] at hkept
    rw [hkept, List.length_cons]
    by_cases hq : primary = some p
    · rw [if_pos hq, if_pos hq, if_pos hq, Int.natCast_add, Int.add_assoc, Int.add_comm 1]
      exact rfl
    · rw [if_neg hq, if_neg hq, if_neg hq]
      exact rfl
  · rw [hrest.last, grown_last]
    cases ps with
    | nil => rfl
    | cons p ps => rw [List.getLast?_cons_cons]; exact rfl
  · rw [hrest.log, List.map_cons, List.reverse_cons, List.append_assoc]
    exact rfl

theorem foldl_grown {alignedLen : Nat} (hlong : primary ≠ none → splitSize < alignedLen)
    (cs : List ReadChunk) (h : Extendable s c primary r) (hr : r + cs.length < 2 ^ 31) :
    ∃ s', cs.foldlM (addReadChunk c alignedLen primary) s = .ok s' ∧
      Grown c primary s cs (newTasks s.fresh cs.length) s' := by
  induction cs generalizing s r with
  | nil => exact ⟨s, rfl, Grown.refl⟩
  | cons ch cs ih =>
    rw [List.length_cons] at hr
    obtain ⟨task, hreads, hnext, hadd⟩ := addReadChunk_grown ch h hlong (by omega)
    obtain ⟨s', hs', hgrown⟩ := ih (h.grown task) (by omega)
    refine ⟨s', ?_, ?_⟩
    · rw [List.foldlM_cons, hadd]
      exact hs'
    · rw [List.length_cons, newTasks_succ]
      exact Grown.cons h hreads hnext hgrown

theorem addReadChunk_primary {q : TaskPtr} {off len : Nat} {code : Int} {fill : FillCb}
    (hlast : ∀ q, (s.ctxs c).nvmeTaskLast = some q → s.tasks q ≠ none)
    (hnot : (s.ctxs c).nvmeTaskLast ≠ some q)
    (hopen : s.tasks q = some (Task.new .readCommand off len code)) (hle : len ≤ splitSize) :
    ∃ s' task, addReadChunk c len (some q) s ⟨off, len, fill⟩ = .ok s' ∧
      s'.tasks q = some task ∧ Reads c none ⟨off, len, fill⟩ task ∧ task.next = none ∧
      (s'.ctxs c).nvmeTaskLast = some q ∧ s'.log = .append c q :: s.log := by
  have hadd : addReadChunk c len (some q) s ⟨off, len, fill⟩ =
      iocAppendTask (s.setTask q (subtask c none code ⟨off, len, fill⟩)) c q := by
    have hchunk : chunkTask s len (some q) ⟨off, len, fill⟩ = .ok (q, s) := if_pos hle
    unfold addReadChunk
    rw [hchunk]
    change (do
      let task ← Sys.task s q
      _) = _
    rw [Sys.task_some hopen]
    exact rfl
  have halloc : ∀ q', (s.ctxs c).nvmeTaskLast = some q' →
      (s.setTask q (subtask c none code ⟨off, len, fill⟩)).tasks q' ≠ none := by
    intro q' hq'
    have hne : q' ≠ q := fun heq => hnot (heq ▸ hq')
    rw [Sys.setTask_tasks, update_of_ne hne]
    exact hlast q' hq'
  refine ⟨_, subtask c none code ⟨off, len, fill⟩, hadd.trans (iocAppendTask_linked halloc), ?_,
    subtask_reads c none code _, rfl, ?_, rfl⟩
  · refine (linked_of_ne hnot).trans ?_
    rw [Sys.setTask_tasks, update_self]
  · simp only [update_self]

end

/-! The tiling. -/

section
variable {α β : Type} {R : α → β → Prop}

theorem forall₂_get {l : List α} {l' : List β} (h : List.Forall₂ R l l') {k : Nat} {b : β}
    (hk : l'[k]? = some b) : ∃ a, l[k]? = some a ∧ R a b := by
  induction h generalizing k with
  | nil => cases hk
  | @cons a b' l l' hab _ ih =>
    cases k with
    | zero =>
      rw [List.getElem?_cons_zero] at hk
      obtain rfl := Option.some.inj hk
      exact ⟨a, List.getElem?_cons_zero, hab⟩
    | succ k =>
      rw [List.getElem?_cons_succ] at hk
      obtain ⟨a', ha', hab'⟩ := ih hk
      exact ⟨a', by rw [List.getElem?_cons_succ, ha'], hab'⟩

theorem forall₂_map {γ : Type} {l : List α} {l' : List β} (h : List.Forall₂ R l l') {f : α → γ}
    {g : β → γ} (hfg : ∀ a b, R a b → g b = f a) : l'.map g = l.map f := by
  induction h with
  | nil => rfl
  | cons hab _ ih => rw [List.map_cons, List.map_cons, ih, hfg _ _ hab]

end

theorem exists_tasks {tasks : TaskPtr → Option Task} {R : ReadChunk → Task → Prop}
    {ps : List TaskPtr} {cs : List ReadChunk}
    (h : List.Forall₂ (fun p ch => ∃ task, tasks p = some task ∧ R ch task) ps cs) :
    ∃ ts : List Task, ps.map tasks = ts.map some ∧ List.Forall₂ R cs ts := by
  induction h with
  | nil => exact ⟨[], rfl, .nil⟩
  | @cons p ch ps cs hhead _ ih =>
    obtain ⟨task, htask, hR⟩ := hhead
    obtain ⟨ts, hts, hrest⟩ := ih
    refine ⟨task :: ts, ?_, .cons hR hrest⟩
    rw [List.map_cons, List.map_cons, htask, hts]

/-- The tasks `ts` read the device range; their fills copy its part from `origOff` on to `buf`. -/
structure ReadTiling (alignedOff alignedLen origOff origLen buf : Nat) (ts : List Task) : Prop where
  device : Tiles alignedOff alignedLen (ts.map fun t => (t.offset, t.len))
  size : ∀ t ∈ ts, 0 < t.len ∧ t.len ≤ splitSize
  buffer : ∃ fs : List FillCb, ts.map Task.fillCb = fs.map some ∧
    Tiles buf origLen (fs.map fun f => (f.buf, f.tmpLen))
  inside : ∀ t ∈ ts, ∀ f ∈ t.fillCb, f.tmpOff + f.tmpLen ≤ t.len
  source : ∀ t ∈ ts, ∀ f ∈ t.fillCb, ∀ i j, i < f.tmpLen → f.buf + i = buf + j →
    t.offset + (f.tmpOff + i) = origOff + j
  turns : ∀ k t, ts[k]? = some t → (turnAt alignedOff buf alignedLen origOff origLen k).NoWrap ∧
    t.offset = (turnAt alignedOff buf alignedLen origOff origLen k).begin ∧
    t.len = (turnAt alignedOff buf alignedLen origOff origLen k).readSize ∧
    t.fillCb = some (turnAt alignedOff buf alignedLen origOff origLen k).chunk.fill

/-- What `make_read_tasks` leaves in memory: the tasks `ps`, linked behind the context, which are
the primary alone, or new tasks that the primary counts. -/
structure ReadTasks (c : CtxPtr) (primary : Option TaskPtr) (s : Sys) (ps : List TaskPtr)
    (ts : List Task) (s' : Sys) : Prop where
  tasks : ps.map s'.tasks = ts.map some
  reads : ∀ t ∈ ts, t.command = .readCommand ∧ t.ctx = some c
  chain : Chain (nextOf s'.tasks) ps.head? ps
  last : (s'.ctxs c).nvmeTaskLast = ps.getLast?
  log : s'.log = (ps.map (Event.append c)).reverse ++ s.log
  used : ∀ q, primary = some q → (q ∈ ps ↔ ps.length = 1)
  others : ∀ p ∈ ps, primary ≠ some p → (∃ n, p = .heap n ∧ s.fresh ≤ n) ∧
    ∃ t, s'.tasks p = some t ∧ t.primary = primary
  counted : ∀ q, primary = some q → q ∉ ps →
    ∃ prim, s'.tasks q = some prim ∧ prim.ref = ps.length

section
variable {s : Sys} {c : CtxPtr} {primary : Option TaskPtr}
  {alignedOff alignedLen origOff origLen buf : Nat} {cs : List ReadChunk} {ts : List Task}

theorem ReadSplit.tiling
    (hcs : readChunks alignedOff buf alignedLen origOff origLen = some cs)
    (hsplit : ReadSplit alignedOff alignedLen (origOff - alignedOff) origLen buf cs)
    (hend : alignedOff + alignedLen < 2 ^ 63) (hle : alignedOff ≤ origOff)
    (hskip : origOff - alignedOff < min alignedLen splitSize)
    (horig : origOff + origLen ≤ alignedOff + alignedLen) {p : Option TaskPtr}
    (h : List.Forall₂ (Reads c p) cs ts) :
    ReadTiling alignedOff alignedLen origOff origLen buf ts := by
  have hmem : ∀ t ∈ ts, ∃ ch ∈ cs, Reads c p ch t := by
    intro t ht
    obtain ⟨k, hk⟩ := List.mem_iff_getElem?.mp ht
    obtain ⟨ch, hch, hreads⟩ := forall₂_get h hk
    exact ⟨ch, List.mem_of_getElem? hch, hreads⟩
  refine ⟨?_, ?_, ?_, ?_, ?_, ?_⟩
  · rw [forall₂_map h (f := fun ch => (ch.off, ch.len))]
    · exact hsplit.tiles
    · intro ch t hr
      rw [hr.offset, hr.len]
  · intro t ht
    obtain ⟨ch, hch, hr⟩ := hmem t ht
    rw [hr.len]
    exact hsplit.size ch hch
  · refine ⟨cs.map ReadChunk.fill, ?_, ?_⟩
    · rw [List.map_map]
      exact forall₂_map h fun ch t hr => hr.fill
    · rw [List.map_map]
      exact hsplit.fills
  · intro t ht f hf
    obtain ⟨ch, hch, hr⟩ := hmem t ht
    obtain rfl : ch.fill = f := Option.some.inj (hr.fill.symm.trans hf)
    rw [hr.len]
    exact (hsplit.inside ch hch).1
  · intro t ht f hf i j hi hj
    obtain ⟨ch, hch, hr⟩ := hmem t ht
    obtain rfl : ch.fill = f := Option.some.inj (hr.fill.symm.trans hf)
    have htarget := hsplit.target ch hch (by omega)
    rw [hr.offset]
    omega
  · intro k t hk
    obtain ⟨ch, hch, hr⟩ := forall₂_get h hk
    obtain ⟨hturn, hno⟩ := readChunks_turn hcs hend hle hskip horig hch
    refine ⟨hno, ?_, ?_, ?_⟩
    · rw [hr.offset, hturn]
      exact rfl
    · rw [hr.len, hturn]
      exact rfl
    · rw [hr.fill, hturn]

/-- What its callers give to `make_read_tasks`: a context whose last task is in memory, free heap
addresses, and for a synchronous read the task made for the whole range, in no context yet. -/
structure Given (s : Sys) (c : CtxPtr) (alignedOff alignedLen : Nat) (primary : Option TaskPtr) :
    Prop where
  last : ∀ q, (s.ctxs c).nvmeTaskLast = some q → s.tasks q ≠ none
  free : ∀ n, s.fresh ≤ n → s.tasks (.heap n) = none
  primary : ∀ q, primary = some q → (∃ n, q = .stack n) ∧ (s.ctxs c).nvmeTaskLast ≠ some q ∧
    ∃ code, s.tasks q = some (Task.new .readCommand alignedOff alignedLen code)

theorem Given.extendable (h : Given s c alignedOff alignedLen primary) :
    Extendable s c primary 0 where
  last := h.last
  free := h.free
  primary := by
    intro q hq
    obtain ⟨hstack, _, code, hopen⟩ := h.primary q hq
    exact ⟨hstack, _, hopen, rfl⟩

theorem Loaded.given {pend : CtxPtr → List TaskPtr} (h : Loaded pend c s)
    (hopen : ∀ q, s.frame = some q →
      pend c = [] ∧ s.tasks q = some (Task.new .readCommand alignedOff alignedLen 1)) :
    Given s c alignedOff alignedLen s.frame where
  last := by
    intro q hq
    rw [(h.pending c).last] at hq
    exact h.alloc (List.mem_of_getLast? hq)
  free := fun n hn => (h.fresh n hn).1
  primary := by
    intro q hq
    obtain ⟨hempty, htask⟩ := hopen q hq
    refine ⟨(h.frame q hq).1, ?_, 1, htask⟩
    rw [(h.pending c).last, hempty, List.getLast?_nil]
    exact (Option.some_ne_none q).symm

theorem ReadTasks.ofGrown {s' : Sys} (h : Given s c alignedOff alignedLen primary)
    (hcs : cs ≠ []) (hlong : primary ≠ none → cs.length ≠ 1)
    (hg : Grown c primary s cs (newTasks s.fresh cs.length) s')
    (hts : (newTasks s.fresh cs.length).map s'.tasks = ts.map some)
    (hreads : List.Forall₂ (Reads c primary) cs ts) :
    ReadTasks c primary s (newTasks s.fresh cs.length) ts s' := by
  have hlen : (newTasks s.fresh cs.length).length = cs.length := by
    unfold newTasks
    rw [List.length_map, List.length_range']
  have hmem : ∀ t ∈ ts, ∃ ch, Reads c primary ch t := by
    intro t ht
    obtain ⟨k, hk⟩ := List.mem_iff_getElem?.mp ht
    obtain ⟨ch, _, hr⟩ := forall₂_get hreads hk
    exact ⟨ch, hr⟩
  have hstack : ∀ q, primary = some q → q ∉ newTasks s.fresh cs.length := by
    intro q hq hin
    obtain ⟨⟨n, rfl⟩, _⟩ := h.primary q hq
    obtain ⟨m, _, hm⟩ := List.mem_map.mp hin
    cases hm
  refine ⟨hts, ?_, hg.chain, ?_, hg.log, ?_, ?_, ?_⟩
  · intro t ht
    obtain ⟨ch, hr⟩ := hmem t ht
    exact ⟨hr.command, hr.ctx⟩
  · rw [hg.last]
    cases hl : (newTasks s.fresh cs.length).getLast? with
    | none =>
      rw [List.getLast?_eq_none_iff] at hl
      rw [hl] at hlen
      exact absurd (List.length_eq_zero_iff.mp hlen.symm) hcs
    | some p => exact rfl
  · intro q hq
    rw [hlen]
    have hne := hlong (by rw [hq]; exact Option.some_ne_none q)
    exact ⟨fun hin => absurd hin (hstack q hq), fun heq => absurd heq hne⟩
  · intro p hp _
    constructor
    · obtain ⟨n, hn, heq⟩ := List.mem_map.mp hp
      exact ⟨n, heq.symm, (List.mem_range'_1.mp hn).1⟩
    · have hin : s'.tasks p ∈ ts.map some := by
        rw [← hts]
        exact List.mem_map_of_mem hp
      obtain ⟨t, ht, heq⟩ := List.mem_map.mp hin
      obtain ⟨ch, hr⟩ := hmem t ht
      exact ⟨t, heq.symm, hr.primary⟩
  · intro q hq _
    obtain ⟨⟨n, hn⟩, _, code, hopen⟩ := h.primary q hq
    have hold : Old s q := by
      intro m hm
      rw [hn] at hm
      cases hm
    refine ⟨_, hg.kept q _ hold hopen, ?_⟩
    simp only
    rw [if_pos hq, hlen]
    exact Int.zero_add _

/-- `make_read_tasks` ends, tiles the device window and the buffer, and uses the primary only for a
range that is not split. -/
theorem make_read_tasks_tile (s : Sys) (c : CtxPtr) (primary : Option TaskPtr)
    (alignedOff alignedLen origOff origLen buf : Nat)
    (hgiven : Given s c alignedOff alignedLen primary)
    (hpos : 0 < alignedLen) (hend : alignedOff + alignedLen < 2 ^ 63)
    (hcount : (alignedLen + (splitSize - 1)) / splitSize < 2 ^ 31)
    (hle : alignedOff ≤ origOff) (horig : origOff + origLen ≤ alignedOff + alignedLen)
    (hskip : origOff - alignedOff < min alignedLen splitSize) :
    ∃ s' ps ts, makeReadTasks s alignedOff c buf alignedLen primary origOff origLen = .ok s' ∧
      ReadTiling alignedOff alignedLen origOff origLen buf ts ∧
      ReadTasks c primary s ps ts s' := by
  have hsize : splitSize = 131072 := rfl
  obtain ⟨cs, hcs, hsplit⟩ : ∃ cs, readChunks alignedOff buf alignedLen origOff origLen = some cs ∧
      ReadSplit alignedOff alignedLen (origOff - alignedOff) origLen buf cs :=
    readChunks_spec hend hle (Or.inr hskip) horig
  have hne : cs ≠ [] := by
    obtain ⟨ch, hch, _⟩ := hsplit.first hpos
    exact List.ne_nil_of_mem hch
  have hlen := hsplit.count
  unfold makeReadTasks
  rw [hcs]
  by_cases hsingle : primary ≠ none ∧ alignedLen ≤ splitSize
  · -- the primary is the only task
    obtain ⟨hprimary, hshort⟩ := hsingle
    obtain ⟨q, hq⟩ := Option.ne_none_iff_exists'.mp hprimary
    obtain ⟨hstack, hnot, code, hopen⟩ := hgiven.primary q hq
    rcases readChunks_single hcs hshort (by omega) with rfl | ⟨fill, rfl⟩
    · exact absurd rfl hne
    obtain ⟨s', task, hadd, htask, hreads, hnext, hlast, hlog⟩ :
        ∃ s' task, addReadChunk c alignedLen (some q) s ⟨alignedOff, alignedLen, fill⟩ = .ok s' ∧
          s'.tasks q = some task ∧ Reads c none ⟨alignedOff, alignedLen, fill⟩ task ∧
          task.next = none ∧ (s'.ctxs c).nvmeTaskLast = some q ∧ s'.log = .append c q :: s.log :=
      addReadChunk_primary hgiven.last hnot hopen hshort
    have htiling := ReadSplit.tiling hcs hsplit hend hle hskip horig (.cons hreads .nil)
    refine ⟨s', [q], [task], ?_, htiling, ?_⟩
    · rw [hq]
      change (do
        let s' ← addReadChunk c alignedLen (some q) s ⟨alignedOff, alignedLen, fill⟩
        _) = _
      rw [hadd]
      exact rfl
    · refine ⟨?_, ?_, ?_, hlast, hlog, ?_, ?_, ?_⟩
      · rw [List.map_singleton, List.map_singleton, htask]
      · simp only [List.mem_singleton, forall_eq]
        exact ⟨hreads.command, hreads.ctx⟩
      · apply Chain.cons
        unfold nextOf
        rw [htask, Option.bind_some, hnext]
        exact .nil
      · intro q' hq'
        obtain rfl := Option.some.inj (hq.symm.trans hq')
        simp
      · intro p hp hother
        rw [List.mem_singleton] at hp
        exact absurd (hp ▸ hq) hother
      · intro q' hq' hnotin
        obtain rfl := Option.some.inj (hq.symm.trans hq')
        exact absurd List.mem_cons_self hnotin
  · have hlong : primary ≠ none → splitSize < alignedLen := by
      intro hprimary
      by_contra hshort
      exact hsingle ⟨hprimary, by omega⟩
    obtain ⟨s', hs', hgrown⟩ := foldl_grown hlong cs hgiven.extendable (by omega)
    obtain ⟨ts, hts, hreads⟩ := exists_tasks hgrown.made
    refine ⟨s', newTasks s.fresh cs.length, ts, hs',
      ReadSplit.tiling hcs hsplit hend hle hskip horig hreads, ?_⟩
    apply ReadTasks.ofGrown hgiven hne _ hgrown hts hreads
    intro hprimary
    have hlt := hlong hprimary
    rw [hsize] at hlen hlt
    omega

end

/-- `read_random` of 138000 bytes from 140000 on, in blocks of 4096: 131072 bytes from 139264 on in
one task and 8192 in another. -/
theorem make_read_tasks_two : ∃ s' ps ts,
    makeReadTasks (opened started 139264 139264) 139264 (.stack 1) 7 139264 (some (.stack 0))
      140000 138000 = .ok s' ∧
      ReadTiling 139264 139264 140000 138000 7 ts ∧
      ReadTasks (.stack 1) (some (.stack 0)) (opened started 139264 139264) ps ts s' := by
  have hgiven : Given (opened started 139264 139264) (.stack 1) 139264 139264
      (some (.stack 0)) := by
    refine ⟨?_, fun _ _ => rfl, ?_⟩
    · intro q hq
      cases hq
    · intro q hq
      obtain rfl := Option.some.inj hq
      exact ⟨⟨0, rfl⟩, (Option.some_ne_none _).symm, 1, rfl⟩
  exact make_read_tasks_tile (opened started 139264 139264) (.stack 1) (some (.stack 0)) 139264
    139264 140000 138000 7 hgiven (by decide) (by decide) (by decide) (by decide) (by decide) (by decide)

end LockdepSpdk.Blk
