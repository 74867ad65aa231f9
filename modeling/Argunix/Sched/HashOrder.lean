import Mathlib.Data.Multiset.Defs
import Argunix.Sched.Ledger

/-!
# The pick does not depend on the hash order

`dispatch` folds a hand-written comparison over `repos`, a hash map. Which repo wins is a
function of the *map*, and not of the order it happens to be iterated in, only because the
comparison never sees two candidates as equal: clocks may tie, and then the sequence numbers
decide, and those are distinct across repos.

That is an invariant and not a type: `Numbered` is what every call keeps. It says nothing
about the clocks, so how they are added up does not matter to any result of this file.

The second half is the same fact over whole histories. `Fed` is a run with the calls it is
fed and the answers it gives; two processes with two hash seeds that are fed the same calls
give the same answers (`fed_agree`).
-/

set_option autoImplicit false
set_option linter.unusedSectionVars false

namespace Argunix.Lib

/-! ## The first minimum of a list does not depend on its order if there is only one -/

/-- **A minimum that nothing ties with is the same in every order.** -/
theorem argmin_eq_of_perm {α β : Type} [LinearOrder β] {f : α → β} {l l' : List α}
    (hp : l.Perm l') (hinj : ∀ a ∈ l, ∀ b ∈ l, f a = f b → a = b) :
    l'.argmin f = l.argmin f := by
  cases ha : l.argmin f with
  | none =>
    rw [List.argmin_eq_none] at ha
    subst ha
    rw [hp.nil_eq.symm]
    rfl
  | some a =>
    cases hb : l'.argmin f with
    | none =>
      rw [List.argmin_eq_none] at hb
      subst hb
      rw [hp.eq_nil] at ha
      cases ha
    | some b =>
      have hal : a ∈ l := List.argmin_mem ha
      have hbl : b ∈ l := hp.mem_iff.mpr (List.argmin_mem hb)
      have hab : f a ≤ f b := List.le_of_mem_argmin hbl ha
      have hba : f b ≤ f a := List.le_of_mem_argmin (hp.mem_iff.mp hal) hb
      rw [hinj a hal b hbl (le_antisymm hab hba)]

namespace HashMap

variable {K V : Type} [DecidableEq K]

omit [DecidableEq K] in
theorem Shuffle.trans {m m' m'' : HashMap K V} (h : Shuffle m m') (h' : Shuffle m' m'') :
    Shuffle m m'' := List.Perm.trans h h'

omit [DecidableEq K] in
theorem Shuffle.symm {m m' : HashMap K V} (h : Shuffle m m') : Shuffle m' m := List.Perm.symm h

theorem Shuffle.modify {m m' : HashMap K V} (h : Shuffle m m') (k : K) (f : V → V) :
    Shuffle (m.modify k f) (m'.modify k f) := List.Perm.map _ h

omit [DecidableEq K] in
theorem Shuffle.mapValues {m m' : HashMap K V} (h : Shuffle m m') (f : V → V) :
    Shuffle (m.mapValues f) (m'.mapValues f) := List.Perm.map _ h

theorem Shuffle.insert {m m' : HashMap K V} (h : Shuffle m m') (k : K) (v : V) :
    Shuffle (m.insert k v) (m'.insert k v) := AList.perm_insert h

theorem Shuffle.erase {m m' : HashMap K V} (h : Shuffle m m') (k : K) :
    Shuffle (m.erase k) (m'.erase k) := AList.perm_erase h

omit [DecidableEq K] in
theorem Shuffle.keys {m m' : HashMap K V} (h : Shuffle m m') : m.keys.Perm m'.keys :=
  List.Perm.map _ h

end HashMap

end Argunix.Lib

namespace Argunix.Sched

open Argunix.Lib

namespace WfqCore

variable {T : Type} [DecidableEq T]

/-! ## The invariant -/

/-- The entry is queued for the repo. -/
def Queued (c : WfqCore T) (r : RepoId) (e : ℕ × T) : Prop :=
  ∃ st, c.repos.lookup r = some st ∧ e ∈ st.pending

/-- **No two queued entries share a sequence number**, a later entry of one queue has a larger
    one, and the next number is larger than all of them. -/
structure Numbered (c : WfqCore T) : Prop where
  below : ∀ r e, c.Queued r e → e.1 < c.nextSeq
  owner : ∀ r r' e e', c.Queued r e → c.Queued r' e' → e.1 = e'.1 → r = r'
  ascending : ∀ r st, c.repos.lookup r = some st → st.pending.Pairwise fun e e' => e.1 < e'.1

theorem Shuffle.queued {c c' : WfqCore T} (h : Shuffle c c') (r : RepoId) (e : ℕ × T) :
    c'.Queued r e ↔ c.Queued r e := by
  unfold Queued
  rw [h.lookup]

theorem Numbered.shuffle {c c' : WfqCore T} (h : Numbered c) (hs : Shuffle c c') :
    Numbered c' where
  below r e he := by
    rw [hs.nextSeq]
    exact h.below r e ((hs.queued r e).mp he)
  owner r r' e e' he he' := h.owner r r' e e' ((hs.queued r e).mp he) ((hs.queued r' e').mp he')
  ascending r st hl := h.ascending r st (hs.lookup r ▸ hl)

theorem numbered_new (cap : Option ℕ) : Numbered (WfqCore.new cap : WfqCore T) where
  below r e he := by
    obtain ⟨st, hl, -⟩ := he
    exact absurd hl (by simp [WfqCore.new])
  owner r r' e e' he _ := by
    obtain ⟨st, hl, -⟩ := he
    exact absurd hl (by simp [WfqCore.new])
  ascending r st hl := absurd hl (by simp [WfqCore.new])

/-- The numbers a call hands out. -/
theorem nextSeq_apply (c : WfqCore T) (op : WfqOp T) : c.nextSeq ≤ (c.apply op).2.nextSeq := by
  cases op with
  | enqueue r t => exact Nat.le_succ _
  | dispatch =>
    rcases dispatch_cases c with ⟨hn, -⟩ | ⟨r, st, q, tag, rest, -, -, -, -, hd⟩
    · simp [WfqCore.apply, hn]
    · simp [WfqCore.apply, hd]
  | setWeight r w => exact le_rfl
  | complete t => exact le_rfl
  | cancelPending p => exact le_rfl

/-- **What a call does to one queue.** It leaves a sublist of it, or appends the next number. -/
theorem pending_apply (c : WfqCore T) (op : WfqOp T) {r : RepoId} {st : RepoState T}
    (hl : (c.apply op).2.repos.lookup r = some st) :
    (∃ old, c.repos.lookup r = some old ∧ st.pending.Sublist old.pending) ∨
    (c.repos.lookup r = none ∧ st.pending = []) ∨
    ∃ t, op = .enqueue r t ∧
      st.pending = ((c.repos.lookup r).map (·.pending)).getD [] ++ [(c.nextSeq, t)] := by
  cases op with
  | setWeight r' w =>
    simp only [WfqCore.apply, lookup_setWeight] at hl
    split at hl
    · rename_i hr
      subst hr
      obtain rfl := Option.some.inj hl
      cases ho : c.repos.lookup r with
      | none => exact Or.inr (Or.inl ⟨rfl, rfl⟩)
      | some old => exact Or.inl ⟨old, rfl, List.Sublist.refl _⟩
    · exact Or.inl ⟨st, hl, List.Sublist.refl _⟩
  | enqueue r' t =>
    simp only [WfqCore.apply, lookup_enqueue] at hl
    split at hl
    · rename_i hr
      subst hr
      obtain rfl := Option.some.inj hl
      refine Or.inr (Or.inr ⟨t, rfl, ?_⟩)
      cases c.repos.lookup r <;> rfl
    · exact Or.inl ⟨st, hl, List.Sublist.refl _⟩
  | dispatch =>
    rcases dispatch_cases c with ⟨hn, -⟩ | ⟨r', st', q, tag, rest, hl', -, -, -, hd⟩
    · simp only [WfqCore.apply, hn] at hl
      exact Or.inl ⟨st, hl, List.Sublist.refl _⟩
    · simp only [WfqCore.apply, hd] at hl
      rcases HashMap.lookup_modify_cases hl with ⟨rfl, old, ho, rfl⟩ | ⟨-, ho⟩
      · exact Or.inl ⟨old, ho, List.tail_sublist _⟩
      · exact Or.inl ⟨st, ho, List.Sublist.refl _⟩
  | complete t => exact Or.inl ⟨st, hl, List.Sublist.refl _⟩
  | cancelPending p =>
    simp only [WfqCore.apply, lookup_cancelPending, Option.map_eq_some_iff] at hl
    obtain ⟨old, ho, rfl⟩ := hl
    exact Or.inl ⟨old, ho, List.filter_sublist⟩

theorem queued_of_getD {c : WfqCore T} {r : RepoId} {e : ℕ × T}
    (h : e ∈ ((c.repos.lookup r).map (·.pending)).getD []) : c.Queued r e := by
  cases hl : c.repos.lookup r with
  | none => simp [hl] at h
  | some st => exact ⟨st, hl, by simpa [hl] using h⟩

/-- A queued entry was queued before the call, or the call is its enqueue. -/
theorem queued_apply {c : WfqCore T} {op : WfqOp T} {r : RepoId} {e : ℕ × T}
    (h : (c.apply op).2.Queued r e) :
    c.Queued r e ∨ ∃ t, op = .enqueue r t ∧ e = (c.nextSeq, t) := by
  obtain ⟨st, hl, he⟩ := h
  rcases pending_apply c op hl with ⟨old, ho, hsub⟩ | ⟨-, hnil⟩ | ⟨t, hop, heq⟩
  · exact Or.inl ⟨old, ho, hsub.subset he⟩
  · rw [hnil] at he
    exact absurd he (by simp)
  · rw [heq] at he
    rcases List.mem_append.mp he with hold | hnew
    · exact Or.inl (queued_of_getD hold)
    · exact Or.inr ⟨t, hop, List.mem_singleton.mp hnew⟩

/-- **Every call keeps the numbering.** -/
theorem Numbered.apply {c : WfqCore T} (h : Numbered c) (op : WfqOp T) :
    Numbered (c.apply op).2 where
  below r e he := by
    rcases queued_apply he with hold | ⟨t, rfl, rfl⟩
    · exact lt_of_lt_of_le (h.below r e hold) (nextSeq_apply c op)
    · exact Nat.lt_succ_self _
  owner r r' e e' he he' heq := by
    rcases queued_apply he with hold | ⟨t, rfl, rfl⟩
    · rcases queued_apply he' with hold' | ⟨t', rfl, rfl⟩
      · exact h.owner r r' e e' hold hold' heq
      · have hlt := h.below r e hold
        rw [heq] at hlt
        exact absurd hlt (lt_irrefl _)
    · rcases queued_apply he' with hold' | ⟨t', hop, -⟩
      · have hlt := h.below r' e' hold'
        rw [← heq] at hlt
        exact absurd hlt (lt_irrefl _)
      · injection hop
  ascending r st hl := by
    rcases pending_apply c op hl with ⟨old, ho, hsub⟩ | ⟨-, hnil⟩ | ⟨t, -, heq⟩
    · exact (h.ascending r old ho).sublist hsub
    · rw [hnil]
      exact List.Pairwise.nil
    · rw [heq, List.pairwise_append]
      refine ⟨?_, List.pairwise_singleton _ _, fun e he e' he' => ?_⟩
      · cases ho : c.repos.lookup r with
        | none => exact List.Pairwise.nil
        | some old => exact h.ascending r old ho
      · obtain rfl := List.mem_singleton.mp he'
        exact h.below r e (queued_of_getD he)

theorem Run.numbered {ok : WfqCore T → WfqOp T → Prop} {c c' : WfqCore T}
    {served : List RepoId} (h : Run ok c served c') (h₀ : Numbered c) : Numbered c' := by
  induction h with
  | nil => exact h₀
  | step _ _ hs ih => exact (ih.shuffle hs).apply _

/-! ## The pick -/

theorem queued_of_candidate {c : WfqCore T} {x : RepoId × ℚ × ℕ} (h : x ∈ c.candidates) :
    ∃ t, c.Queued x.1 (x.2.2, t) := by
  obtain ⟨st, hl, -, hq⟩ := mem_candidates_iff.mp h
  cases hp : st.pending with
  | nil => simp [RepoState.earliestSeq, hp] at hq
  | cons e rest =>
    have hseq : e.1 = x.2.2 := by simpa [RepoState.earliestSeq, hp] using hq
    exact ⟨e.2, st, hl, by rw [hp, ← hseq]; exact List.mem_cons_self⟩

/-- **No two candidates compare as equal.** -/
theorem Numbered.candidate_inj {c : WfqCore T} (h : Numbered c) {x y : RepoId × ℚ × ℕ}
    (hx : x ∈ c.candidates) (hy : y ∈ c.candidates) (hxy : toLex x.2 = toLex y.2) : x = y := by
  have htail : x.2 = y.2 := hxy
  obtain ⟨t, ht⟩ := queued_of_candidate hx
  obtain ⟨t', ht'⟩ := queued_of_candidate hy
  have hrepo : x.1 = y.1 := h.owner x.1 y.1 _ _ ht ht' (congrArg Prod.snd htail)
  exact Prod.ext hrepo htail

theorem Shuffle.candidates {c c' : WfqCore T} (h : Shuffle c c') :
    c.candidates.Perm c'.candidates := List.Perm.filterMap _ h.repos

theorem Shuffle.pick {c c' : WfqCore T} (h : Shuffle c c') (hn : Numbered c) :
    c'.pick = c.pick := by
  rw [pick_eq_argmin, pick_eq_argmin]
  exact argmin_eq_of_perm h.candidates fun x hx y hy hxy => hn.candidate_inj hx hy hxy

theorem Shuffle.capReached {c c' : WfqCore T} (h : Shuffle c c') :
    c'.capReached = c.capReached := by
  unfold WfqCore.capReached
  rw [h.concurrencyCap, h.inFlight.keys.length_eq]

theorem Shuffle.trans {c c' c'' : WfqCore T} (h : Shuffle c c') (h' : Shuffle c' c'') :
    Shuffle c c'' where
  repos := h.repos.trans h'.repos
  inFlight := h.inFlight.trans h'.inFlight
  concurrencyCap := h'.concurrencyCap.trans h.concurrencyCap
  nextSeq := h'.nextSeq.trans h.nextSeq

theorem Shuffle.symm {c c' : WfqCore T} (h : Shuffle c c') : Shuffle c' c where
  repos := h.repos.symm
  inFlight := h.inFlight.symm
  concurrencyCap := h.concurrencyCap.symm
  nextSeq := h.nextSeq.symm

/-- **A dispatch over a map in another order** answers the same and ends in the same map. -/
theorem Shuffle.dispatch {c c' : WfqCore T} (h : Shuffle c c') (hn : Numbered c) :
    c'.dispatch.1 = c.dispatch.1 ∧ Shuffle c.dispatch.2 c'.dispatch.2 := by
  unfold WfqCore.dispatch
  rw [h.capReached, h.pick hn]
  cases c.capReached with
  | true => exact ⟨rfl, h⟩
  | false =>
    simp only [Bool.false_eq_true, if_false]
    cases c.pick with
    | none => exact ⟨rfl, h⟩
    | some p =>
      simp only [h.lookup]
      cases (c.repos.lookup p.1).bind (·.pending.head?) with
      | none => exact ⟨rfl, h⟩
      | some e =>
        exact ⟨rfl, h.repos.modify _ _, h.inFlight.insert _ _, h.concurrencyCap, h.nextSeq⟩

/-- **The order of the map does not show.** In every core a sequence of calls can reach, no
    two repos hold entries of one number; a candidate that is minimal in clock and number is
    the only one; and every other iteration order of the map dispatches the same tag for the
    same repo, ends in the same map, and has the same system virtual time. -/
theorem dispatch_order_free {cap : Option ℕ} {served : List RepoId} {c : WfqCore T}
    (hrun : Run (fun _ _ => True) (WfqCore.new cap) served c) :
    (∀ r r' e e', c.Queued r e → c.Queued r' e' → e.1 = e'.1 → r = r') ∧
    (c.candidates ≠ [] →
      ∃! x, x ∈ c.candidates ∧ ∀ y ∈ c.candidates, toLex x.2 ≤ toLex y.2) ∧
    ∀ c', Shuffle c c' →
      c'.dispatch.1 = c.dispatch.1 ∧ Shuffle c.dispatch.2 c'.dispatch.2 ∧
        c'.systemVirtualTime = c.systemVirtualTime := by
  have hn : Numbered c := hrun.numbered (numbered_new cap)
  refine ⟨hn.owner, fun hne => ?_, fun c' hs => ?_⟩
  · cases hmin : c.candidates.argmin fun x => toLex x.2 with
    | none => exact absurd (List.argmin_eq_none.mp hmin) hne
    | some x =>
      have hx : x ∈ c.candidates := List.argmin_mem hmin
      have hle : ∀ y ∈ c.candidates, toLex x.2 ≤ toLex y.2 := fun y hy =>
        List.le_of_mem_argmin (f := fun x : RepoId × ℚ × ℕ => toLex x.2) hy hmin
      refine ⟨x, ⟨hx, hle⟩, fun y hy => ?_⟩
      exact hn.candidate_inj hy.1 hx (le_antisymm (hy.2 x hx) (hle y hy.1))
  · obtain ⟨hpop, hnext⟩ := hs.dispatch hn
    exact ⟨hpop, hnext, hs.systemVirtualTime⟩

/-- Two repos that have not been served yet: their clocks tie, and the numbers decide. -/
def tied : WfqCore ℕ := ((WfqCore.new none).runOps [.enqueue ⟨1⟩ 7, .enqueue ⟨2⟩ 9]).2

/-- The same core, iterated the other way round. -/
def tiedBack : WfqCore ℕ :=
  { tied with repos := ⟨tied.repos.entries.reverse,
      (List.perm_nodupKeys (List.reverse_perm _)).mpr tied.repos.nodupKeys⟩ }

theorem dispatch_order_free_tied :
    tiedBack.repos.entries ≠ tied.repos.entries ∧
      tiedBack.dispatch.1 = tied.dispatch.1 ∧ tied.dispatch.1 = some ⟨7, ⟨1⟩⟩ := by
  have hs : Shuffle tied tiedBack := ⟨(List.reverse_perm _).symm, .refl _, rfl, rfl⟩
  have hrun : Run (fun _ _ => True) (WfqCore.new none) _ tied :=
    .of_ops ⟨trivial, trivial, trivial⟩
  refine ⟨by decide, ?_, by rfl⟩
  exact ((dispatch_order_free hrun).2.2 tiedBack hs).1

/-! ## Whole histories -/

/-- What a call answers: the popped tag, the repo of a completed one, and the cancelled tags.
    The last come in the map's order, and are kept without it. -/
def answer (c : WfqCore T) : WfqOp T → Option (Popped T) × Option RepoId × Multiset T
  | .setWeight .. => (none, none, 0)
  | .enqueue .. => (none, none, 0)
  | .dispatch => (c.dispatch.1, none, 0)
  | .complete t => (none, (c.complete t).1, 0)
  | .cancelPending p => (none, none, (c.cancelPending p).1)

/-- A core that is fed a list of calls and gives these answers; the maps may be iterated in
    another order at every call. -/
inductive Fed : WfqCore T → List (WfqOp T) →
    List (Option (Popped T) × Option RepoId × Multiset T) → WfqCore T → Prop
  | nil {c : WfqCore T} : Fed c [] [] c
  | cons {c c₁ c' : WfqCore T} {op : WfqOp T} {ops : List (WfqOp T)}
      {answers : List (Option (Popped T) × Option RepoId × Multiset T)} :
      Shuffle c c₁ → Fed (c₁.apply op).2 ops answers c' →
      Fed c (op :: ops) (c₁.answer op :: answers) c'

theorem shuffle_entryOrInsert {repos repos' : HashMap RepoId (RepoState T)}
    (h : HashMap.Shuffle repos repos') (r : RepoId) (w : ℕ) :
    HashMap.Shuffle (entryOrInsert repos r w) (entryOrInsert repos' r w) := by
  unfold entryOrInsert
  rw [← h.lookup r]
  cases repos.lookup r with
  | none => exact h.insert _ _
  | some st => exact h

/-- **A call on the same map in another order** ends in the same map. -/
theorem Shuffle.apply {c c' : WfqCore T} (h : Shuffle c c') (hn : Numbered c) (op : WfqOp T) :
    Shuffle (c.apply op).2 (c'.apply op).2 := by
  cases op with
  | setWeight r w =>
    exact ⟨(shuffle_entryOrInsert h.repos r w).modify _ _, h.inFlight, h.concurrencyCap,
      h.nextSeq⟩
  | enqueue r t =>
    refine ⟨?_, h.inFlight, h.concurrencyCap, congrArg (· + 1) h.nextSeq⟩
    show HashMap.Shuffle _ ((entryOrInsert c'.repos r DEFAULT_WEIGHT).modify r
      (·.push c'.systemVirtualTime c'.nextSeq t))
    rw [h.systemVirtualTime, h.nextSeq]
    exact (shuffle_entryOrInsert h.repos r _).modify _ _
  | dispatch => exact (h.dispatch hn).2
  | complete t => exact ⟨h.repos, h.inFlight.erase t, h.concurrencyCap, h.nextSeq⟩
  | cancelPending p => exact ⟨h.repos.mapValues _, h.inFlight, h.concurrencyCap, h.nextSeq⟩

theorem Shuffle.answer {c c' : WfqCore T} (h : Shuffle c c') (hn : Numbered c) (op : WfqOp T) :
    c'.answer op = c.answer op := by
  cases op with
  | setWeight r w => rfl
  | enqueue r t => rfl
  | dispatch => exact congrArg (·, none, 0) (h.dispatch hn).1
  | complete t => exact congrArg (none, ·, 0) (h.inFlight.lookup t).symm
  | cancelPending p =>
    have hperm : (c'.cancelPending p).1.Perm (c.cancelPending p).1 :=
      (List.Perm.flatMap_right _ (List.Perm.map _ h.repos)).symm
    exact congrArg (none, none, ·) (Multiset.coe_eq_coe.mpr hperm)

/-- Two orders of one map that are fed the same calls stay two orders of one map. -/
theorem Fed.agree {c d : WfqCore T} {ops : List (WfqOp T)}
    {answers : List (Option (Popped T) × Option RepoId × Multiset T)}
    (h : Fed c ops answers d) {c' d' : WfqCore T}
    {answers' : List (Option (Popped T) × Option RepoId × Multiset T)} (hs : Shuffle c c')
    (hn : Numbered c) (h' : Fed c' ops answers' d') : answers = answers' ∧ Shuffle d d' := by
  induction h generalizing c' answers' with
  | nil =>
    cases h' with
    | nil => exact ⟨rfl, hs⟩
  | cons hc _ ih =>
    cases h' with
    | cons hc' hrest' =>
      -- both reorderings of the two maps are reorderings of each other
      have hboth := (hc.symm.trans hs).trans hc'
      have hn₁ := hn.shuffle hc
      obtain ⟨rfl, hd⟩ := ih (hboth.apply hn₁ _) (hn₁.apply _) hrest'
      exact ⟨congrArg (· :: _) (hboth.answer hn₁ _).symm, hd⟩

/-- **Two hash seeds, one history.** Two processes that start empty and are fed the same calls
    give the same answers, call for call, however their maps are iterated. -/
theorem fed_agree {cap : Option ℕ} {ops : List (WfqOp T)} {d d' : WfqCore T}
    {answers answers' : List (Option (Popped T) × Option RepoId × Multiset T)}
    (h : Fed (WfqCore.new cap) ops answers d) (h' : Fed (WfqCore.new cap) ops answers' d') :
    answers = answers' ∧ Shuffle d d' :=
  h.agree (.refl _) (numbered_new cap) h'

/-- The second process sees the two repos the other way round before it dispatches. -/
theorem fed_agree_tied :
    [(none, none, 0), (none, none, 0), tied.answer .dispatch]
      = [(none, none, 0), (none, none, 0), tiedBack.answer .dispatch] := by
  have hs : Shuffle tied tiedBack := ⟨(List.reverse_perm _).symm, .refl _, rfl, rfl⟩
  have h : Fed (WfqCore.new none) [.enqueue ⟨1⟩ 7, .enqueue ⟨2⟩ 9, .dispatch]
      [(none, none, 0), (none, none, 0), tied.answer .dispatch] (tied.apply .dispatch).2 :=
    .cons (.refl _) (.cons (.refl _) (.cons (.refl _) .nil))
  have h' : Fed (WfqCore.new none) [.enqueue ⟨1⟩ 7, .enqueue ⟨2⟩ 9, .dispatch]
      [(none, none, 0), (none, none, 0), tiedBack.answer .dispatch]
      (tiedBack.apply .dispatch).2 :=
    .cons (.refl _) (.cons (.refl _) (.cons hs .nil))
  exact (fed_agree h h').1

end WfqCore

end Argunix.Sched
