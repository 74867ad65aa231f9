import Mathlib.Logic.Relation
import Argunix.Lib.HashMap
import Argunix.Lib.Runs
import Argunix.Domain

/-!
# `argunix-eval`: job specs and the closure walk

A `JobSpec` is one line of the evaluator's output; a `ClosureWalk` is the derivation graph
behind the specs that have a derivation. `closureFor` walks it from one head with an explicit
stack and a visited set, and drops what is not in the graph.

`closureFor_reachable` says what the walk computes: it comes to an end, and what it has found are
the derivations of the graph that the head transitively reads, each once, the head itself excepted.
A cycle through the head changes nothing, since the head counts as visited from the start.
-/

set_option autoImplicit false

namespace Argunix.Eval

open Argunix.Lib

/-- The fields of `JobSpec` the daemon's scheduling and the image fan-in read. Of `meta` that is
    what `sbom::runtime_roots` reads off it. -/
structure JobSpec where
  attrPath : String
  drvPath : Option String
  system : Option String
  error : Option String
  isCached : Bool
  requiredSystemFeatures : List String
  imageFormat : Option ImageFormat := none
  sbomRuntimeRoots : List String := []
deriving DecidableEq, Repr

structure ClosureWalk where
  heads : List String
  derivations : HashMap String DerivationInfo

namespace ClosureWalk

/-- `walk_closures` files every derivation under its own path. -/
def Keyed (w : ClosureWalk) : Prop :=
  ∀ d info, w.derivations.lookup d = some info → info.drvPath = d

instance (w : ClosureWalk) : Decidable w.Keyed :=
  decidable_of_iff (∀ e ∈ w.derivations.entries, e.2.drvPath = e.1)
    ⟨fun h d info hl => h ⟨d, info⟩ (HashMap.mem_entries_iff.mpr hl),
      fun h e he => h e.1 e.2 (HashMap.mem_entries_iff.mp he)⟩

def inputsOf (w : ClosureWalk) (drv : String) : List String :=
  ((w.derivations.lookup drv).map (·.inputDrvs)).getD []

/-- The `while let Some(drv) = queue.pop()` loop. The stack is kept top first, so `extend`
    pushes the inputs in reverse. -/
def closureLoop (w : ClosureWalk) :
    ℕ → List String → List String → List DerivationInfo → List DerivationInfo
  | 0, _, _, out => out
  | _ + 1, [], _, out => out
  | fuel + 1, drv :: stack, visited, out =>
    if drv ∈ visited then closureLoop w fuel stack visited out
    else match w.derivations.lookup drv with
      | some info =>
        closureLoop w fuel (info.inputDrvs.reverse ++ stack) (drv :: visited) (out ++ [info])
      | none => closureLoop w fuel stack (drv :: visited) out

/-- Inputs of derivations that were not visited: each can be pushed once more. -/
def unread (w : ClosureWalk) (visited : List String) : ℕ :=
  w.derivations.sumOver fun drv info => if drv ∈ visited then 0 else info.inputDrvs.length

def closureFor (w : ClosureWalk) (headDrv : String) : List DerivationInfo :=
  closureLoop w ((w.inputsOf headDrv).length + w.unread [headDrv]) (w.inputsOf headDrv).reverse
    [headDrv] []

/-! ## What the walk computes -/

/-- `b` is a declared input of the derivation `a` of the graph. -/
def Reads (w : ClosureWalk) (a b : String) : Prop := b ∈ w.inputsOf a

theorem unread_cons {w : ClosureWalk} {drv : String} {info : DerivationInfo} {visited : List String}
    (hl : w.derivations.lookup drv = some info) (hnew : drv ∉ visited) :
    w.unread (drv :: visited) + info.inputDrvs.length = w.unread visited := by
  have := HashMap.sumOver_reweigh
    (w := fun d (i : DerivationInfo) => if d ∈ visited then 0 else i.inputDrvs.length)
    (u := fun d (i : DerivationInfo) => if d ∈ drv :: visited then 0 else i.inputDrvs.length) hl
    (fun k v hk => by simp [hk])
  simp only [hnew, if_false, List.mem_cons, true_or, if_true, Nat.add_zero] at this
  unfold unread
  simpa only [List.mem_cons] using this

theorem unread_cons_of_none {w : ClosureWalk} {drv : String} {visited : List String}
    (hl : w.derivations.lookup drv = none) : w.unread (drv :: visited) = w.unread visited := by
  refine HashMap.sumOver_congr fun k v hk => ?_
  have hne : k ≠ drv := by
    rintro rfl
    rw [hl] at hk
    exact absurd hk (by simp)
  simp [hne]

/-- The variables of the loop. -/
structure Walk where
  stack : List String
  visited : List String
  out : List DerivationInfo

/-- One round of the loop, which ends with the stack. -/
def closureStep (w : ClosureWalk) (s : Walk) : Option Walk :=
  match s.stack with
  | [] => none
  | drv :: stack =>
    if drv ∈ s.visited then some { s with stack := stack }
    else match w.derivations.lookup drv with
      | some info => some ⟨info.inputDrvs.reverse ++ stack, drv :: s.visited, s.out ++ [info]⟩
      | none => some ⟨stack, drv :: s.visited, s.out⟩

/-- The variables before the first round. -/
def startWalk (w : ClosureWalk) (headDrv : String) : Walk :=
  ⟨(w.inputsOf headDrv).reverse, [headDrv], []⟩

/-- Rounds of the loop. -/
abbrev Rounds (w : ClosureWalk) : Walk → Walk → Prop :=
  Runs (fun s (_ : Unit) => w.closureStep s) Always

theorem closureStep_cases {w : ClosureWalk} {s s' : Walk} (h : w.closureStep s = some s') :
    ∃ drv stack, s.stack = drv :: stack ∧
      ((drv ∈ s.visited ∧ s' = { s with stack := stack }) ∨
        (drv ∉ s.visited ∧ w.derivations.lookup drv = none ∧
          s' = ⟨stack, drv :: s.visited, s.out⟩) ∨
        ∃ info, drv ∉ s.visited ∧ w.derivations.lookup drv = some info ∧
          s' = ⟨info.inputDrvs.reverse ++ stack, drv :: s.visited, s.out ++ [info]⟩) := by
  unfold closureStep at h
  cases hstack : s.stack with
  | nil =>
    rw [hstack] at h
    exact absurd h (by simp)
  | cons drv stack =>
    rw [hstack] at h
    refine ⟨drv, stack, rfl, ?_⟩
    by_cases hv : drv ∈ s.visited
    · simp only [if_pos hv] at h
      exact .inl ⟨hv, (Option.some.inj h).symm⟩
    · simp only [if_neg hv] at h
      cases hl : w.derivations.lookup drv with
      | none =>
        rw [hl] at h
        exact .inr (.inl ⟨hv, rfl, (Option.some.inj h).symm⟩)
      | some info =>
        rw [hl] at h
        exact .inr (.inr ⟨info, hv, rfl, (Option.some.inj h).symm⟩)

/-- **The loop empties the stack**: every round takes an element off it, and the inputs of a
    derivation are pushed once. -/
theorem closureLoop_rounds (w : ClosureWalk) (fuel : ℕ) :
    ∀ (stack visited : List String) (out : List DerivationInfo),
      stack.length + w.unread visited ≤ fuel →
      ∃ visited', w.Rounds ⟨stack, visited, out⟩
        ⟨[], visited', closureLoop w fuel stack visited out⟩ := by
  induction fuel with
  | zero =>
    intro stack visited out hfuel
    obtain rfl : stack = [] := List.length_eq_zero_iff.mp (by omega)
    exact ⟨visited, .refl⟩
  | succ fuel ih =>
    intro stack visited out hfuel
    cases stack with
    | nil => exact ⟨visited, .refl⟩
    | cons drv stack =>
      rw [List.length_cons] at hfuel
      have hround : ∀ s' : Walk, w.closureStep ⟨drv :: stack, visited, out⟩ = some s' →
          w.Rounds ⟨drv :: stack, visited, out⟩ s' :=
        fun s' hs => .step (a := ()) .refl trivial hs
      unfold closureLoop
      by_cases hv : drv ∈ visited
      · rw [if_pos hv]
        obtain ⟨visited', hrest⟩ := ih stack visited out (by omega)
        refine ⟨visited', (hround _ ?_).trans hrest⟩
        simp only [closureStep, if_pos hv]
      · rw [if_neg hv]
        cases hl : w.derivations.lookup drv with
        | none =>
          have hm : w.unread (drv :: visited) = w.unread visited := unread_cons_of_none hl
          obtain ⟨visited', hrest⟩ := ih stack (drv :: visited) out (by omega)
          refine ⟨visited', (hround _ ?_).trans hrest⟩
          simp only [closureStep, if_neg hv, hl]
        | some info =>
          have hm := unread_cons hl hv
          have hlen : (info.inputDrvs.reverse ++ stack).length + w.unread (drv :: visited) ≤
              fuel := by
            rw [List.length_append, List.length_reverse]
            omega
          obtain ⟨visited', hrest⟩ := ih _ (drv :: visited) (out ++ [info]) hlen
          refine ⟨visited', (hround _ ?_).trans hrest⟩
          simp only [closureStep, if_neg hv, hl]

/-- What was visited and is in the graph, in the order of the visits, without the head. -/
def Walk.found (w : ClosureWalk) (head : String) (s : Walk) : List String :=
  s.visited.reverse.filter fun d => d ≠ head ∧ (w.derivations.lookup d).isSome

/-- The loop invariant: what is on the stack is read by the head, and an input of what has been
    visited has been visited or is on the stack. -/
structure Walk.Explored (w : ClosureWalk) (head : String) (s : Walk) : Prop where
  stack : ∀ d ∈ s.stack, Relation.TransGen w.Reads head d
  start : head ∈ s.visited
  nodup : s.visited.Nodup
  reached : ∀ d ∈ s.visited, d ≠ head → Relation.TransGen w.Reads head d
  closed : ∀ d ∈ s.visited, ∀ i ∈ w.inputsOf d, i ∈ s.visited ∨ i ∈ s.stack
  out : s.out.map some = (s.found w head).map w.derivations.lookup

namespace Walk.Explored

variable {w : ClosureWalk} {head : String} {s s' : Walk}

theorem ofStart (w : ClosureWalk) (head : String) : Walk.Explored w head (w.startWalk head) := by
  refine ⟨fun d hd => .single (List.mem_reverse.mp hd), List.mem_singleton_self head,
    List.nodup_singleton head, fun d hd hne => ?_, fun d hd i hi => ?_, by simp [startWalk, found]⟩
  · exact absurd (List.mem_singleton.mp hd) hne
  · obtain rfl := List.mem_singleton.mp hd
    exact .inr (List.mem_reverse.mpr hi)

/-- A derivation is visited, and its inputs are put on the stack. -/
theorem visit {drv : String} {stack : List String} {out : List DerivationInfo}
    (h : Explored w head s) (hs : s.stack = drv :: stack) (hv : drv ∉ s.visited)
    (hout : out.map some = s.out.map some ++
      if (w.derivations.lookup drv).isSome then [w.derivations.lookup drv] else []) :
    Explored w head ⟨(w.inputsOf drv).reverse ++ stack, drv :: s.visited, out⟩ := by
  have hreach : Relation.TransGen w.Reads head drv := h.stack drv (hs ▸ List.mem_cons_self)
  have hne : drv ≠ head := fun heq => hv (heq ▸ h.start)
  refine ⟨fun d hd => ?_, List.mem_cons_of_mem drv h.start, List.nodup_cons.mpr ⟨hv, h.nodup⟩,
    fun d hd hd' => ?_, fun d hd i hi => ?_, ?_⟩
  · rcases List.mem_append.mp hd with hd | hd
    · exact hreach.tail (List.mem_reverse.mp hd)
    · exact h.stack d (hs ▸ List.mem_cons_of_mem drv hd)
  · rcases List.mem_cons.mp hd with rfl | hd
    · exact hreach
    · exact h.reached d hd hd'
  · rcases List.mem_cons.mp hd with rfl | hd
    · exact .inr (List.mem_append_left _ (List.mem_reverse.mpr hi))
    · rcases h.closed d hd i hi with hi | hi
      · exact .inl (List.mem_cons_of_mem drv hi)
      · rw [hs] at hi
        rcases List.mem_cons.mp hi with rfl | hi
        · exact .inl List.mem_cons_self
        · exact .inr (List.mem_append_right _ hi)
  · rw [hout, h.out, found, found, List.reverse_cons, List.filter_append, List.map_append]
    refine congrArg _ ?_
    cases hl : w.derivations.lookup drv <;> simp [hl, hne]

theorem step (h : Explored w head s) (hstep : w.closureStep s = some s') : Explored w head s' := by
  obtain ⟨drv, stack, hs, hcases⟩ := closureStep_cases hstep
  rcases hcases with ⟨hv, rfl⟩ | ⟨hv, hl, rfl⟩ | ⟨info, hv, hl, rfl⟩
  · refine ⟨fun d hd => h.stack d (hs ▸ List.mem_cons_of_mem drv hd), h.start, h.nodup, h.reached,
      fun d hd i hi => ?_, h.out⟩
    rcases h.closed d hd i hi with hi | hi
    · exact .inl hi
    · rw [hs] at hi
      rcases List.mem_cons.mp hi with rfl | hi
      · exact .inl hv
      · exact .inr hi
  · have hin : w.inputsOf drv = [] := by simp [inputsOf, hl]
    have hout : s.out.map some = s.out.map some ++
        if (w.derivations.lookup drv).isSome then [w.derivations.lookup drv] else [] := by
      simp [hl]
    have hnew := h.visit hs hv hout
    rwa [hin] at hnew
  · have hin : w.inputsOf drv = info.inputDrvs := by simp [inputsOf, hl]
    have hout : (s.out ++ [info]).map some = s.out.map some ++
        if (w.derivations.lookup drv).isSome then [w.derivations.lookup drv] else [] := by
      simp [hl]
    have hnew := h.visit hs hv hout
    rwa [hin] at hnew

/-- Once the stack is empty, everything that the head reads has been visited. -/
theorem mem_found (h : Explored w head s) (hs : s.stack = []) {d : String} :
    d ∈ s.found w head ↔
      d ≠ head ∧ (w.derivations.lookup d).isSome ∧ Relation.TransGen w.Reads head d := by
  have hclosed : ∀ d ∈ s.visited, ∀ i ∈ w.inputsOf d, i ∈ s.visited := by
    intro d hd i hi
    rcases h.closed d hd i hi with hi | hi
    · exact hi
    · rw [hs] at hi
      exact absurd hi List.not_mem_nil
  have hall : ∀ d, Relation.TransGen w.Reads head d → d ∈ s.visited := by
    intro d hd
    induction hd with
    | single hr => exact hclosed head h.start _ hr
    | tail _ hr ih => exact hclosed _ ih _ hr
  simp only [found, List.mem_filter, List.mem_reverse, decide_eq_true_eq]
  constructor
  · intro ⟨hv, hne, hl⟩
    exact ⟨hne, hl, h.reached d hv hne⟩
  · intro ⟨hne, hl, hr⟩
    exact ⟨hall d hr, hne, hl⟩

end Walk.Explored

/-- What the walk has found when it is over, by path. -/
theorem closureFor_found (w : ClosureWalk) (head : String) :
    ∃ visited, w.Rounds (w.startWalk head) ⟨[], visited, w.closureFor head⟩ ∧
      ∃ paths : List String, paths.Nodup ∧
        (w.closureFor head).map some = paths.map w.derivations.lookup ∧
        ∀ d, d ∈ paths ↔
          d ≠ head ∧ (w.derivations.lookup d).isSome ∧ Relation.TransGen w.Reads head d := by
  have hfuel : (w.inputsOf head).reverse.length + w.unread [head] ≤
      (w.inputsOf head).length + w.unread [head] := by
    rw [List.length_reverse]
  obtain ⟨visited, hrounds⟩ := closureLoop_rounds w _ _ [head] [] hfuel
  have hinv : Walk.Explored w head ⟨[], visited, w.closureFor head⟩ :=
    hrounds.invariant (Walk.Explored.ofStart w head) fun hi _ hstep => hi.step hstep
  exact ⟨visited, hrounds, _, (List.nodup_reverse.mpr hinv.nodup).filter _, hinv.out,
    fun d => hinv.mem_found rfl⟩

/-- **The walk computes the transitive inputs** that are in the graph, without the head. -/
theorem mem_closureFor_iff {w : ClosureWalk} {head : String} {info : DerivationInfo} :
    info ∈ w.closureFor head ↔
      ∃ d, d ≠ head ∧ Relation.TransGen w.Reads head d ∧ w.derivations.lookup d = some info := by
  obtain ⟨_, _, paths, _, hout, hmem⟩ := w.closureFor_found head
  have hsome : info ∈ w.closureFor head ↔ some info ∈ paths.map w.derivations.lookup := by
    rw [← hout]
    simp
  rw [hsome, List.mem_map]
  constructor
  · intro ⟨d, hd, hl⟩
    obtain ⟨hne, -, hr⟩ := (hmem d).mp hd
    exact ⟨d, hne, hr, hl⟩
  · intro ⟨d, hne, hr, hl⟩
    exact ⟨d, (hmem d).mpr ⟨hne, by rw [hl]; rfl, hr⟩, hl⟩

theorem Keyed.map_drvPath {w : ClosureWalk} (hk : w.Keyed) {infos : List DerivationInfo}
    {paths : List String} (h : infos.map some = paths.map w.derivations.lookup) :
    infos.map (·.drvPath) = paths := by
  induction paths generalizing infos with
  | nil => rw [List.map_eq_nil_iff.mp h]; rfl
  | cons d paths ih =>
    cases infos with
    | nil => exact absurd h (by simp)
    | cons info infos =>
      obtain ⟨hd, htail⟩ := List.cons.inj h
      rw [List.map_cons, hk d info hd.symm, ih htail]

/-- **`closure_for` is reachability.** The loop comes to an end with what is returned; the paths of
    the derivations that are returned are distinct, and they are those in the graph, other than the
    head, that the head reaches in one or more steps through the graph. If every derivation is filed
    under its own path, none is returned twice and none has the path of the head. -/
theorem closureFor_reachable (w : ClosureWalk) (head : String) :
    (∃ visited, w.Rounds (w.startWalk head) ⟨[], visited, w.closureFor head⟩) ∧
      (∃ paths : List String, paths.Nodup ∧
        (w.closureFor head).map some = paths.map w.derivations.lookup ∧
        ∀ d, d ∈ paths ↔
          d ≠ head ∧ (w.derivations.lookup d).isSome ∧ Relation.TransGen w.Reads head d) ∧
      (w.Keyed → ((w.closureFor head).map (·.drvPath)).Nodup ∧
        ∀ info ∈ w.closureFor head, info.drvPath ≠ head) := by
  obtain ⟨visited, hrounds, paths, hnodup, hout, hmem⟩ := w.closureFor_found head
  refine ⟨⟨visited, hrounds⟩, ⟨paths, hnodup, hout, hmem⟩, fun hk => ⟨?_, fun info hi => ?_⟩⟩
  · -- under its own path, a derivation is as good as its path
    rwa [hk.map_drvPath hout]
  · obtain ⟨d, hne, -, hl⟩ := mem_closureFor_iff.mp hi
    rwa [hk d info hl]

/-- Two derivations that read each other, and one of them reads what is not in the graph. -/
def cycle : ClosureWalk where
  heads := ["a"]
  derivations :=
    (AList.insert "b" ⟨"b", none, [], ["c", "a"]⟩ ∅ : HashMap String DerivationInfo).insert
      "a" ⟨"a", none, [], ["b", "b"]⟩

theorem closureFor_reachable_cycle : cycle.Keyed ∧
    (cycle.closureFor "a").map (·.drvPath) = ["b"] ∧
    ((cycle.closureFor "a").map (·.drvPath)).Nodup := by
  have hk : cycle.Keyed := by decide
  exact ⟨hk, by decide, ((closureFor_reachable cycle "a").2.2 hk).1⟩

end ClosureWalk

end Argunix.Eval
