import LockdepSpdk.Blk.Turn

/-!
# Runs of calls

What each call leaves behind, and the invariant of every state that a run of
calls, polls, transfers and completions reaches while fewer than 2^31 tasks are
outstanding.
-/

namespace LockdepSpdk.Blk

set_option autoImplicit false

open Function Linked Transition

section
variable {cfg : Config} {pend : CtxPtr → List TaskPtr} {rest : List TaskPtr} {s s' : Sys}

/-! The calls. -/

def opened (s : Sys) (off len : Nat) : Sys := (openContext (openFrame s off len).2).2

theorem Quiet.opened (h : Quiet pend s) (hpc : s.pc = .idle) (off len : Nat) :
    Loaded pend (.stack (s.fresh + 1)) (Blk.opened s off len) := by
  apply (h.openFrame off len).openContext hpc
  intro q hq
  obtain rfl : TaskPtr.stack s.fresh = q := Option.some.inj hq
  exact ⟨⟨_, rfl⟩, _, update_self _ _ _, primary_new _ off len⟩

theorem Quiet.ownContext (h : Quiet pend s) (hpc : s.pc = .idle) (hframe : s.frame = none) :
    Loaded pend (.stack s.fresh) (Blk.openContext s).2 := by
  apply h.openContext hpc
  rw [hframe]
  intro q hq
  cases hq

theorem write_ok {off len buf : Nat} (h : Quiet pend s) (hpc : s.pc = .idle)
    (hframe : s.frame = none) (hvalid : isValidIo cfg off len = true)
    (hlt : (writeChunks off len buf).length < 2 ^ 31) :
    ∃ ps s1, write cfg s off len buf = aioSubmit s1 (.stack s.fresh) ∧
      Extends pend (.stack s.fresh) (openContext s).2 ps
        ((writeChunks off len buf).map WriteChunk.job) s1 := by
  have hempty := h.locals s.fresh
  have hlt' : (pend (.stack s.fresh)).length + (writeChunks off len buf).length < 2 ^ 31 := by
    rw [hempty, List.length_nil, Nat.zero_add]
    exact hlt
  obtain ⟨ps, s1, hs1, hext⟩ := writeSplit_ok (h.ownContext hpc hframe) hframe hlt'
  refine ⟨ps, s1, ?_, hext⟩
  unfold write
  rw [if_pos hvalid]
  change (do
    let s2 ← writeSplit (openContext s).2 off len buf (.stack s.fresh)
    aioSubmit s2 (.stack s.fresh)) = _
  rw [hs1]
  exact rfl

theorem readSync_ok {off len buf origOff origLen : Nat} {cs : List ReadChunk} (h : Quiet pend s)
    (hpc : s.pc = .idle) (hcs : readChunks off buf len origOff origLen = some cs)
    (hlt : cs.length < 2 ^ 31) :
    ∃ ps s1, readSync s off len buf origOff origLen = aioSubmit s1 (.stack (s.fresh + 1)) ∧
      Extends pend (.stack (s.fresh + 1)) (opened s off len) ps (cs.map ReadChunk.job) s1 := by
  have hempty := h.locals (s.fresh + 1)
  obtain ⟨ps, s1, hs1, hext⟩ := makeReadTasks_ok (h.opened hpc off len) hcs
    (by rw [hempty, List.length_nil, Nat.zero_add]; exact hlt) nofun
    (by
      intro q hq
      obtain rfl : TaskPtr.stack s.fresh = q := Option.some.inj hq
      exact ⟨hempty, update_self _ _ _⟩)
  refine ⟨ps, s1, ?_, hext⟩
  unfold readSync
  change (do
    let s3 ← makeReadTasks (opened s off len) off (.stack (s.fresh + 1)) buf len
      (opened s off len).frame origOff origLen
    aioSubmit s3 (.stack (s.fresh + 1))) = _
  rw [hs1]
  exact rfl

theorem aioWrite_ok {off len buf : Nat} {c : CtxPtr} (h : Loaded pend c s) (hframe : s.frame = none)
    (hvalid : isValidIo cfg off len = true)
    (hlt : (pend c).length + (writeChunks off len buf).length < 2 ^ 31) :
    ∃ ps s1, aioWrite cfg s off len buf c = .ok { s1 with ret := 0 } ∧
      Extends pend c s ps ((writeChunks off len buf).map WriteChunk.job) s1 := by
  obtain ⟨ps, s1, hs1, hext⟩ := writeSplit_ok h hframe hlt
  refine ⟨ps, s1, ?_, hext⟩
  unfold aioWrite
  rw [if_pos hvalid, hs1]
  exact rfl

theorem aioRead_ok {off len buf : Nat} {c : CtxPtr} {cs : List ReadChunk} (h : Loaded pend c s)
    (hframe : s.frame = none) (hvalid : isValidIo cfg off len = true)
    (hcs : readChunks off buf len off len = some cs)
    (hlt : (pend c).length + cs.length < 2 ^ 31) :
    ∃ ps s1, aioRead cfg s off len buf c = .ok { s1 with ret := 0 } ∧
      Extends pend c s ps (cs.map ReadChunk.job) s1 := by
  obtain ⟨ps, s1, hs1, hext⟩ := makeReadTasks_ok h hcs hlt (fun _ => readChunks_fits hcs) (by
    rw [hframe]
    intro q hq
    cases hq)
  refine ⟨ps, s1, ?_, hext⟩
  unfold aioRead
  rw [hframe] at hs1
  rw [if_pos hvalid, hs1]
  exact rfl

end

/-! The invariant. -/

/-- `pend` and `rest` of the invariant, from the state. -/
def Inv (cfg : Config) (s : Sys) : Prop :=
  ∃ pend rest, Core cfg pend rest s ∧ Books pend rest s ∧
    (s.frame ≠ none → (s.ctxs s.ioc).priv = none)

/-- Tasks that a call makes. -/
def Call.taskCount (cfg : Config) : Call → Nat
  | .read off len buf => ((readChunks off buf len off len).getD []).length
  | .readRandom off len buf =>
    let alignedOff := p2align off cfg.blockSize
    let alignedLen := sub64 (p2roundup (add64 off len) cfg.blockSize) alignedOff
    ((readChunks alignedOff buf alignedLen off len).getD []).length
  | .write off len buf => (writeChunks off len buf).length
  | .aioRead off len buf _ => ((readChunks off buf len off len).getD []).length
  | .aioWrite off len buf _ => (writeChunks off len buf).length
  | .aioSubmit _ => 0

/-- Outstanding tasks of the context that a call gets; a synchronous call has its own. -/
def Call.outstanding (s : Sys) : Call → Nat
  | .aioRead _ _ _ c => Blk.outstanding s (.user c)
  | .aioWrite _ _ _ c => Blk.outstanding s (.user c)
  | .aioSubmit c => Blk.outstanding s (.user c)
  | _ => 0

/-- Fewer than 2^31 tasks are outstanding on a context. -/
def Fits (cfg : Config) (s : Sys) : Label → Prop
  | .call c => c.outstanding s + c.taskCount cfg < 2 ^ 31
  | _ => True

instance (cfg : Config) (s : Sys) : (l : Label) → Decidable (Fits cfg s l)
  | .call _ => inferInstanceAs (Decidable (_ < _))
  | .store _ _ => inferInstanceAs (Decidable True)
  | .tick => inferInstanceAs (Decidable True)
  | .transfer _ => inferInstanceAs (Decidable True)
  | .complete _ => inferInstanceAs (Decidable True)

def Runs (cfg : Config) (s : Sys) (l : Label) (s' : Sys) : Prop := Fits cfg s l ∧ Step cfg s l s'

theorem Initial.inv {cfg : Config} {s : Sys} (h : Initial s) : Inv cfg s := by
  have hempty : ∀ c, s.ctxs c = IOContext.new (s.ctxs c).priv := h.ctxs
  have hquiet : Quiet (fun _ => []) s := by
    refine ⟨?_, by simp, fun _ => rfl, h.inflight, ?_, ?_, ?_, h.depth, ?_, h.t⟩
    · intro d
      rw [hempty d]
      exact ⟨.nil, rfl, rfl⟩
    · intro d
      rw [hempty d]
      exact rfl
    · intro d
      rw [hempty d]
      exact rfl
    · rw [h.pool]
      exact List.reverse_perm _
    · intro n _
      exact ⟨h.tasks _, h.tasks _⟩
  refine ⟨_, [], hquiet.core cfg h.pc h.frame, ?_, fun hne => absurd h.frame hne⟩
  refine ⟨?_, ?_, ?_, ?_, ?_, ?_, ?_, ?_, ?_⟩
  · intro c
    rw [h.log, ite_self]
    exact rfl
  · intro c
    rw [h.log, h.inflight]
    simp [flight, submits, completes]
  · simp [h.log, appends]
  · simp [h.log, appends]
  · rw [h.log]
    exact rfl
  · simp [h.log, deletes]
  · simp [h.log, deletes]
  · intro c
    rw [h.log, hempty c]
    exact rfl
  · intro c _
    rw [h.log, h.inflight, if_neg (by simp [flight])]
    exact rfl

section
variable {cfg : Config} {pend : CtxPtr → List TaskPtr} {rest rest' : List TaskPtr} {s s' : Sys}

theorem Turn.sync (h : Turn cfg s rest s' rest')
    (hsync : s.frame ≠ none → (s.ctxs s.ioc).priv = none) :
    s'.frame ≠ none → (s'.ctxs s'.ioc).priv = none := by
  cases h with
  | done hpc hin =>
    intro hne
    exact absurd rfl hne
  | more hpc hne => exact hsync
  | poll hpc hin => exact hsync
  | skip hpc hin => exact hsync
  | polled hpc => exact hsync
  | last hpc => exact hsync
  | wait hpc htask htask' hwait => exact hsync
  | send hpc htask hready hslot hpool =>
    intro hne
    change (update s.ctxs s.ioc _ s.ioc).priv = none
    rw [update_self]
    exact hsync hne

theorem Turn.frame_none (h : Turn cfg s rest s' rest') (hframe : s.frame = none) :
    s'.frame = none := by
  cases h with
  | done hpc hin => exact rfl
  | more hpc hne => exact hframe
  | poll hpc hin => exact hframe
  | skip hpc hin => exact hframe
  | polled hpc => exact hframe
  | last hpc => exact hframe
  | wait hpc htask htask' hwait => exact hframe
  | send hpc htask hready hslot hpool => exact hframe

theorem Loaded.submit_inv {c : CtxPtr} (h : Loaded pend c s) (hbooks : Books pend [] s)
    (hlt : (pend c).length < 2 ^ 31) (hsync : s.frame ≠ none → (s.ctxs c).priv = none) :
    ∃ s', aioSubmit s c = .ok s' ∧ Inv cfg s' := by
  by_cases hempty : pend c = []
  · rw [h.submit_empty hempty]
    have hinv : ∀ ret, Inv cfg (returned s ret) := by
      intro ret
      refine ⟨pend, [], ?_, ?_, fun hne => absurd rfl hne⟩
      · exact ((h.quiet (Or.inl hempty)).returned ret fun q hq => (h.frame q hq).1).core cfg rfl rfl
      · refine hbooks.silent rfl rfl rfl (Nat.le_refl _) ?_ (fun _ => rfl) fun _ hp => hp
        intro p hp _
        exact returned_dead hp
    rcases Option.eq_none_or_eq_some s.frame with hframe | ⟨q, hframe⟩
    · exact ⟨_, returnCall_none hframe, hinv 0⟩
    · obtain ⟨_, prim, hprim, hp⟩ := h.frame q hframe
      rw [hempty] at hp
      exact ⟨_, returnCall_some hframe hprim (hp.released List.not_mem_nil), hinv _⟩
  · obtain ⟨hs', hcore⟩ := h.submit hempty hlt cfg
    refine ⟨_, hs', _, _, hcore, hbooks.take h.inflight h.running c hempty, ?_⟩
    intro hne
    change (update s.ctxs c _ c).priv = none
    rw [update_self]
    exact hsync hne

theorem Extends.unseen {c : CtxPtr} {s0 s1 : Sys} {ps : List TaskPtr} {js : List Job}
    (h : Extends pend c s0 ps js s1) (hbooks : Books pend rest s) (hlog : s0.log = s.log)
    (hle : s.fresh ≤ s0.fresh)
    (hframe : ∀ q, s0.frame = some q → s.fresh ≤ q.index ∧ q.index < s0.fresh) :
    ∀ p ∈ ps, (∀ d, p ∉ appends d s0.log) ∧ p.index < s1.fresh := by
  intro p hp
  have hfresh := h.fresh
  have hidx : s.fresh ≤ p.index ∧ p.index < s1.fresh := by
    rcases h.known p hp with hq | hk
    · have hq' := hframe p hq
      omega
    · omega
  refine ⟨?_, hidx.2⟩
  intro d hmem
  rw [hlog] at hmem
  have hlt := hbooks.known d p hmem
  omega

theorem Quiet.readSync_inv {off len buf origOff origLen : Nat} {cs : List ReadChunk}
    (h : Quiet pend s) (hbooks : Books pend [] s) (hpc : s.pc = .idle)
    (hcs : readChunks off buf len origOff origLen = some cs) (hlt : cs.length < 2 ^ 31) :
    ∃ s', readSync s off len buf origOff origLen = .ok s' ∧ Inv cfg s' := by
  obtain ⟨ps, s1, hcall, hext⟩ := readSync_ok h hpc hcs hlt
  have hloaded := h.opened hpc off len
  have hbooks' : Books pend [] (Blk.opened s off len) := by
    refine hbooks.silent rfl rfl rfl (Nat.le_add_right _ 2) ?_ ?_ ?_
    · intro p hp hidx
      refine (update_of_ne ?_ _ _).trans hp
      intro heq
      rw [heq] at hidx
      exact Nat.lt_irrefl _ hidx
    · intro d
      rw [hloaded.running d, h.running d]
    · intro d hd
      change (update s.ctxs (.stack (s.fresh + 1)) (IOContext.new none) d).priv ≠ none at hd
      by_cases hd' : d = .stack (s.fresh + 1)
      · subst hd'
        rw [update_self] at hd
        exact absurd rfl hd
      · rwa [update_of_ne hd'] at hd
  have hnew := hext.unseen hbooks rfl (Nat.le_add_right _ 2) (by
    intro q hq
    obtain rfl : TaskPtr.stack s.fresh = q := Option.some.inj hq
    change s.fresh ≤ s.fresh ∧ s.fresh < s.fresh + 2
    omega)
  have hgrown := hbooks'.extends hext hloaded.inflight hloaded.running hnew
  rw [hcall]
  refine hext.loaded.submit_inv hgrown ?_ ?_
  · rw [update_self, h.locals, List.nil_append, hext.length_eq, List.length_map]
    exact hlt
  · intro _
    rw [hext.priv]
    change (update s.ctxs (.stack (s.fresh + 1)) (IOContext.new none) (.stack (s.fresh + 1))).priv = none
    rw [update_self]
    exact rfl

theorem Quiet.write_inv {off len buf : Nat} (h : Quiet pend s) (hbooks : Books pend [] s)
    (hpc : s.pc = .idle) (hframe : s.frame = none) (hvalid : isValidIo cfg off len = true)
    (hlt : (writeChunks off len buf).length < 2 ^ 31) :
    ∃ s', write cfg s off len buf = .ok s' ∧ Inv cfg s' := by
  obtain ⟨ps, s1, hcall, hext⟩ := write_ok h hpc hframe hvalid hlt
  have hloaded := h.ownContext hpc hframe
  have hbooks' : Books pend [] (Blk.openContext s).2 := by
    refine hbooks.silent rfl rfl rfl (Nat.le_add_right _ 1) (fun _ hp _ => hp) ?_ ?_
    · intro d
      rw [hloaded.running d, h.running d]
    · intro d hd
      change (update s.ctxs (.stack s.fresh) (IOContext.new none) d).priv ≠ none at hd
      by_cases hd' : d = .stack s.fresh
      · subst hd'
        rw [update_self] at hd
        exact absurd rfl hd
      · rwa [update_of_ne hd'] at hd
  have hframe' : (Blk.openContext s).2.frame = none := hframe
  have hnew := hext.unseen hbooks rfl (Nat.le_add_right _ 1) (by
    intro q hq
    rw [hframe'] at hq
    cases hq)
  have hgrown := hbooks'.extends hext hloaded.inflight hloaded.running hnew
  rw [hcall]
  refine hext.loaded.submit_inv hgrown ?_ ?_
  · rw [update_self, h.locals, List.nil_append, hext.length_eq, List.length_map]
    exact hlt
  · intro hne
    rw [hext.frame_eq] at hne
    exact absurd hframe' hne

theorem Quiet.fill_inv {n : Nat} {ps : List TaskPtr} {js : List Job} {s1 : Sys} (h : Quiet pend s)
    (hbooks : Books pend [] s) (hframe : s.frame = none)
    (hext : Extends pend (.user n) s ps js s1) : Inv cfg { s1 with ret := 0 } := by
  have hnew := hext.unseen hbooks rfl (Nat.le_refl _) (by
    intro q hq
    rw [hframe] at hq
    cases hq)
  have hgrown := hbooks.extends hext h.inflight h.running hnew
  have hframe' : s1.frame = none := hext.frame_eq.trans hframe
  have hquiet := hext.loaded.quiet (Or.inr ⟨hframe', n, rfl⟩)
  refine ⟨_, [], { hquiet.core cfg hext.loaded.pc hframe' with }, ?_, fun hne => absurd hframe' hne⟩
  exact hgrown.silent rfl rfl rfl (Nat.le_refl _) (fun _ hp _ => hp) (fun _ => rfl) fun _ hp => hp

theorem Inv.idle (h : Inv cfg s) (hpc : s.pc = .idle) :
    ∃ pend, Quiet pend s ∧ Books pend [] s ∧ s.frame = none := by
  obtain ⟨pend, rest, hcore, hbooks, _⟩ := h
  obtain ⟨hin, hrest, hframe⟩ := hcore.idle hpc
  subst hrest
  have hlive : flight s.inflight ++ [] = [] := by
    rw [hin]
    exact rfl
  exact ⟨pend, hcore.quiet hlive, hbooks, hframe⟩

theorem Books.pending_le (h : Books pend [] s) (n : Nat) :
    (pend (.user n)).length ≤ outstanding s (.user n) := by
  rw [h.outstanding_eq]
  exact Nat.le_add_right _ _

theorem Inv.call {c : Call} (h : Inv cfg s) (hpc : s.pc = .idle) (hfits : Fits cfg s (.call c))
    (hstep : c.exec cfg s = .ok s') : Inv cfg s' := by
  obtain ⟨pend, hquiet, hbooks, hframe⟩ := h.idle hpc
  have hread : ∀ {off len buf origOff origLen}, readSync s off len buf origOff origLen = .ok s' →
      ((readChunks off buf len origOff origLen).getD []).length < 2 ^ 31 → Inv cfg s' := by
    intro off len buf origOff origLen hs' hlt
    cases hcs : readChunks off buf len origOff origLen with
    | none =>
      unfold readSync makeReadTasks at hs'
      simp only [hcs] at hs'
      cases hs'
    | some cs =>
      rw [hcs] at hlt
      obtain ⟨s1, hs1, hinv⟩ : ∃ s1, readSync s off len buf origOff origLen = .ok s1 ∧ Inv cfg s1 :=
        hquiet.readSync_inv hbooks hpc hcs hlt
      obtain rfl : s1 = s' := Except.ok.inj (hs1.symm.trans hs')
      exact hinv
  cases c with
  | read off len buf =>
    change Blk.read cfg s off len buf = .ok s' at hstep
    change 0 + _ < 2 ^ 31 at hfits
    rw [Nat.zero_add] at hfits
    unfold Blk.read at hstep
    split at hstep
    · exact hread hstep hfits
    · cases hstep
  | readRandom off len buf =>
    change Blk.readRandom cfg s off len buf = .ok s' at hstep
    change 0 + _ < 2 ^ 31 at hfits
    rw [Nat.zero_add] at hfits
    unfold Blk.readRandom at hstep
    split at hstep
    · exact hread hstep hfits
    · cases hstep
  | write off len buf =>
    change Blk.write cfg s off len buf = .ok s' at hstep
    change 0 + _ < 2 ^ 31 at hfits
    rw [Nat.zero_add] at hfits
    by_cases hvalid : isValidIo cfg off len = true
    · obtain ⟨s1, hs1, hinv⟩ := hquiet.write_inv hbooks hpc hframe hvalid hfits
      obtain rfl : s1 = s' := Except.ok.inj (hs1.symm.trans hstep)
      exact hinv
    · unfold Blk.write at hstep
      rw [if_neg hvalid] at hstep
      cases hstep
  | aioRead off len buf n =>
    change Blk.aioRead cfg s off len buf (.user n) = .ok s' at hstep
    have hpend := hbooks.pending_le n
    by_cases hvalid : isValidIo cfg off len = true
    · cases hcs : readChunks off buf len off len with
      | none =>
        unfold Blk.aioRead makeReadTasks at hstep
        rw [if_pos hvalid, hcs] at hstep
        cases hstep
      | some cs =>
        change outstanding s (.user n) + ((readChunks off buf len off len).getD []).length < 2 ^ 31
          at hfits
        rw [hcs, Option.getD_some] at hfits
        obtain ⟨ps, s1, hs1, hext⟩ := aioRead_ok (hquiet.loaded (.user n) hpc hframe) hframe hvalid
          hcs (by omega)
        obtain rfl := Except.ok.inj (hs1.symm.trans hstep)
        exact hquiet.fill_inv hbooks hframe hext
    · unfold Blk.aioRead at hstep
      rw [if_neg hvalid] at hstep
      cases hstep
  | aioWrite off len buf n =>
    change Blk.aioWrite cfg s off len buf (.user n) = .ok s' at hstep
    have hpend := hbooks.pending_le n
    by_cases hvalid : isValidIo cfg off len = true
    · change outstanding s (.user n) + (writeChunks off len buf).length < 2 ^ 31 at hfits
      have hlt : (pend (.user n)).length + (writeChunks off len buf).length < 2 ^ 31 := by omega
      obtain ⟨ps, s1, hs1, hext⟩ := aioWrite_ok (hquiet.loaded (.user n) hpc hframe) hframe hvalid
        hlt
      obtain rfl := Except.ok.inj (hs1.symm.trans hstep)
      exact hquiet.fill_inv hbooks hframe hext
    · unfold Blk.aioWrite at hstep
      rw [if_neg hvalid] at hstep
      cases hstep
  | aioSubmit n =>
    change Blk.aioSubmit s (.user n) = .ok s' at hstep
    change outstanding s (.user n) + 0 < 2 ^ 31 at hfits
    have hpend := hbooks.pending_le n
    obtain ⟨s1, hs1, hinv⟩ : ∃ s1, Blk.aioSubmit s (.user n) = .ok s1 ∧ Inv cfg s1 :=
      (hquiet.loaded (.user n) hpc hframe).submit_inv hbooks (by omega) fun hne => absurd hframe hne
    obtain rfl : s1 = s' := Except.ok.inj (hs1.symm.trans hstep)
    exact hinv

/-- A step while a call is in progress: only the thread and SPDK take part. -/
def Working (cfg : Config) (s : Sys) (l : Label) (s' : Sys) : Prop :=
  s.pc ≠ .idle ∧ Step cfg s l s'

theorem Working.cases {l : Label} (h : Working cfg s l s') :
    (l = .tick ∧ Blk.tick cfg s = .ok s') ∨
    (∃ i cmd, l = .transfer i ∧ s.inflight[i]? = some cmd ∧ cmd.moved = false ∧
      s' = move cfg { s with inflight := s.inflight.set i { cmd with moved := true } } cmd) ∨
    (∃ i cmd, l = .complete i ∧ s.inflight[i]? = some cmd ∧ cmd.moved = true ∧ s.pc = .polling ∧
      ioComplete { s with inflight := s.inflight.eraseIdx i } cmd.task = .ok s') := by
  obtain ⟨hpc, hstep⟩ := h
  cases l with
  | call c =>
    have hcall : (if s.pc = .idle then c.exec cfg s else .error .disabled) = .ok s' := hstep
    rw [if_neg hpc] at hcall
    cases hcall
  | store a v =>
    have hstore : (if s.pc = .idle then Except.ok { s with mem := update s.mem a v }
      else Except.error Fault.disabled) = .ok s' := hstep
    rw [if_neg hpc] at hstore
    cases hstore
  | tick => exact Or.inl ⟨rfl, hstep⟩
  | transfer i =>
    unfold Step Label.exec at hstep
    simp only at hstep
    split at hstep
    · cases hstep
    · next cmd hi =>
      split at hstep
      · cases hstep
      · next hmoved =>
        exact Or.inr (Or.inl ⟨i, cmd, rfl, hi, by simpa using hmoved, (Except.ok.inj hstep).symm⟩)
  | complete i =>
    unfold Step Label.exec at hstep
    simp only at hstep
    split at hstep
    · cases hstep
    · next cmd hi =>
      split at hstep
      · next hpoll => exact Or.inr (Or.inr ⟨i, cmd, rfl, hi, hpoll.2, hpoll.1, hstep⟩)
      · cases hstep

theorem Core.keeps_working {l : Label} (hcore : Core cfg pend rest s) (hbooks : Books pend rest s)
    (hsync : s.frame ≠ none → (s.ctxs s.ioc).priv = none) (hstep : Working cfg s l s') :
    ∃ rest', Core cfg pend rest' s' ∧ Books pend rest' s' ∧
      (s'.frame ≠ none → (s'.ctxs s'.ioc).priv = none) ∧ (s.frame = none → s'.frame = none) := by
  rcases hstep.cases with ⟨_, htick⟩ | ⟨i, cmd, _, hi, _, rfl⟩ | ⟨i, cmd, _, hi, _, hpc, hdone⟩
  · obtain ⟨s1, rest', hs1, hturn⟩ := hcore.tick_turn hstep.1
    obtain rfl : s1 = s' := Except.ok.inj (hs1.symm.trans htick)
    exact ⟨rest', hcore.turn hturn, hbooks.turn hcore hturn, hturn.sync hsync, hturn.frame_none⟩
  · refine ⟨rest, hcore.transfer hi, hbooks.transfer hi, ?_⟩
    unfold move
    split
    · exact ⟨hsync, id⟩
    · exact ⟨hsync, id⟩
  · obtain ⟨task, htask, hsent⟩ := hcore.sent cmd (List.mem_of_getElem? hi)
    rw [hcore.ioComplete_eq hi htask hsent] at hdone
    obtain ⟨mem, _, heq⟩ := bind_ok hdone
    obtain rfl := Except.ok.inj heq
    refine ⟨rest, hcore.retire (by simp [hpc]) hi htask hsent mem,
      hbooks.retire hcore hi htask hsent mem hsync, ?_, id⟩
    intro hne
    change (update s.ctxs s.ioc _ s.ioc).priv = none
    rw [update_self]
    exact hsync hne

theorem Inv.working {l : Label} (h : Inv cfg s) (hstep : Working cfg s l s') : Inv cfg s' := by
  obtain ⟨pend, rest, hcore, hbooks, hsync⟩ := h
  obtain ⟨rest', hcore', hbooks', hsync', _⟩ := hcore.keeps_working hbooks hsync hstep
  exact ⟨pend, rest', hcore', hbooks', hsync'⟩

theorem Inv.runs {l : Label} (h : Inv cfg s) (hstep : Runs cfg s l s') : Inv cfg s' := by
  obtain ⟨hfits, hstep⟩ := hstep
  by_cases hpc : s.pc = .idle
  · obtain ⟨pend, rest, hcore, hbooks, hsync⟩ := id h
    have hin : s.inflight = [] := (hcore.idle hpc).1
    cases l with
    | call c =>
      have hcall : (if s.pc = .idle then c.exec cfg s else .error .disabled) = .ok s' := hstep
      rw [if_pos hpc] at hcall
      exact h.call hpc hfits hcall
    | store a v =>
      have hstore : (if s.pc = .idle then Except.ok { s with mem := update s.mem a v }
        else Except.error Fault.disabled) = .ok s' := hstep
      rw [if_pos hpc] at hstore
      obtain rfl := Except.ok.inj hstore
      exact ⟨pend, rest, { hcore with }, hbooks.silent rfl rfl rfl (Nat.le_refl _)
        (fun _ hp _ => hp) (fun _ => rfl) fun _ hp => hp, hsync⟩
    | tick =>
      have htick : Blk.tick cfg s = .ok s' := hstep
      unfold Blk.tick at htick
      rw [hpc] at htick
      cases htick
    | transfer i =>
      unfold Step Label.exec at hstep
      simp [hin] at hstep
    | complete i =>
      unfold Step Label.exec at hstep
      simp [hin] at hstep
  · exact h.working ⟨hpc, hstep⟩

def Reached (cfg : Config) : Sys → Prop := Reachable Initial (Runs cfg)

theorem Reached.inv (h : Reached cfg s) : Inv cfg s :=
  h.invariant (fun _ hs => hs.inv) fun _ _ _ hs hstep => hs.runs hstep

end

end LockdepSpdk.Blk
