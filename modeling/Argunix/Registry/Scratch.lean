import Argunix.Registry.PoolBooks

/-!
# The scratch directories, and every run

As long as no two calls share a scratch directory, each finds in its own what its `skopeo` wrote
(`Rooms`): the manifest that it reads and the blobs that it moves belong together, and each blob has
the digest it is named by. With the books of the pool that is all that is needed:
`addressed_of_run` says that in every run in which no crash and no error meets a write, no file is
served or opened once more while it is written, and no job is converted while it is being converted,
what is served is what was asked for, and what was published is there.

`not_addressed_crash` is a crash in the middle of a manifest, and `not_addressed_twice` a second
call that takes the scratch directory away from the first.
-/

set_option autoImplicit false

namespace Argunix.Registry.BlobPool

open Argunix.Lib

namespace State

variable {formats : Formats} {s : State} {i : ℕ} {t : Task}

/-! ## The scratch directories -/

/-- What a call finds in its scratch directory. -/
def Stocked (formats : Formats) (dir : Option Directory) : Stage → Prop
  | .cleared => dir = none
  | .copying wrote => dir = some wrote
  | .copied => ∃ d ∈ dir, IsDirectory formats d
  | .manifestRead manifest =>
    ∃ d ∈ dir, IsDirectory formats d ∧ d.lookup "manifest.json" = some manifest
  | .moving m =>
    -- what is moved is named once, so that no file is taken away from a later one
    m.puts.Pairwise (fun p q => p.bytes = none → q.bytes = none → p.name ≠ q.name) ∧
      ∀ p ∈ m.puts, p.bytes = none →
        ∃ d ∈ dir, ∃ data ∈ d.lookup p.name, formats.sha256 data = p.name
  | .clearing | .orphan | .over => True

theorem Stocked.left (t : Task) (dir : Option Directory) : Stocked formats dir t.left.stage := by
  rw [Task.left]
  split <;> trivial

/-- The first file is through, and `move_or_replace` has taken it away. -/
theorem Stocked.next {job : Job} {m : Moving} {p : Put} {rest : List Put}
    (hputs : m.puts = p :: rest) (h : Stocked formats (s.scratch.lookup job) (.moving m)) :
    Stocked formats ((s.unlink (some job) p).lookup job) (.moving (m.next rest)) := by
  obtain ⟨hpair, hthere⟩ := h
  rw [hputs] at hpair hthere
  obtain ⟨hp, hpair⟩ := List.pairwise_cons.mp hpair
  refine ⟨hpair, fun q hq hqbytes => ?_⟩
  obtain ⟨d, hd, data, hdata, hsha⟩ := hthere q (List.mem_cons_of_mem p hq) hqbytes
  rw [unlink]
  split
  · rename_i hbytes
    refine ⟨d.erase p.name, HashMap.lookup_modify_self hd, data, ?_, hsha⟩
    rw [Option.mem_def, HashMap.lookup_erase_eq, if_neg (Ne.symm (hp q hq hbytes hqbytes))]
    exact hdata
  · exact ⟨d, hd, data, hdata, hsha⟩

theorem lookup_unlink {job : Option Job} {p : Put} {job' : Job} (h : job ≠ some job') :
    (s.unlink job p).lookup job' = s.scratch.lookup job' := by
  cases job with
  | some job =>
    rw [unlink]
    split
    · exact HashMap.lookup_modify_ne fun heq => h (by rw [heq])
    · rfl
  | none => rw [unlink, ite_self]

/-- **Each call has its scratch directory for itself**, and finds there what its `skopeo` wrote. -/
structure Rooms (formats : Formats) (s : State) : Prop where
  one : ∀ (i i' : ℕ) (t t' : Task), s.tasks[i]? = some t → s.tasks[i']? = some t' →
    ∀ job ∈ t.job, t'.job = some job → i = i'
  stocked : ∀ (i : ℕ) (t : Task), s.tasks[i]? = some t → ∀ job ∈ t.job,
    Stocked formats (s.scratch.lookup job) t.stage

namespace Rooms

theorem start : Rooms formats new where
  one i i' t t' h := absurd h (by simp [new])
  stocked i t h := absurd h (by simp [new])

/-- One task changes, and with it its own scratch directory. -/
theorem change (hr : Rooms formats s) (ht : s.tasks[i]? = some t) {t' : Task} {files : Files}
    {scratch : HashMap Job Directory} (hjob : ∀ job ∈ t'.job, t.job = some job)
    (hothers : ∀ job, t.job ≠ some job → scratch.lookup job = s.scratch.lookup job)
    (hself : ∀ job ∈ t'.job, Stocked formats (scratch.lookup job) t'.stage) :
    Rooms formats { s.setTask i t' with files := files, scratch := scratch } where
  one k k' t₁ t₁' hk hk' job hj hj' := by
    rcases of_setTask ht hk with ⟨rfl, rfl⟩ | ⟨-, hold⟩
    · rcases of_setTask ht hk' with ⟨rfl, -⟩ | ⟨-, hold'⟩
      · rfl
      · exact hr.one k k' t t₁' ht hold' job (hjob job hj) hj'
    · rcases of_setTask ht hk' with ⟨rfl, rfl⟩ | ⟨-, hold'⟩
      · exact hr.one k k' t₁ t hold ht job hj (hjob job hj')
      · exact hr.one k k' t₁ t₁' hold hold' job hj hj'
  stocked k t₁ hk job hj := by
    rcases of_setTask ht hk with ⟨rfl, rfl⟩ | ⟨hne, hk⟩
    · exact hself job hj
    · -- another task has another directory
      have hlookup : scratch.lookup job = s.scratch.lookup job :=
        hothers job fun h => hne (hr.one k i t₁ t hk ht job hj h)
      show Stocked formats (scratch.lookup job) t₁.stage
      rw [hlookup]
      exact hr.stocked k t₁ hk job hj

/-- Only a scratch directory changes. -/
theorem of_scratch (hr : Rooms formats s) (ht : s.tasks[i]? = some t)
    {scratch : HashMap Job Directory}
    (hothers : ∀ job, t.job ≠ some job → scratch.lookup job = s.scratch.lookup job)
    (hself : ∀ job ∈ t.job, Stocked formats (scratch.lookup job) t.stage) :
    Rooms formats { s with scratch := scratch } := by
  have hset : s.tasks.set i t = s.tasks := by
    obtain ⟨hlt, rfl⟩ := List.getElem?_eq_some_iff.mp ht
    exact List.set_getElem_self hlt
  have hch : Rooms formats { s.setTask i t with files := s.files, scratch := scratch } :=
    hr.change ht (fun _ h => h) hothers hself
  have htask : ∀ {k : ℕ} {t₁ : Task}, s.tasks[k]? = some t₁ →
      (s.tasks.set i t)[k]? = some t₁ := fun hk => by rw [hset, hk]
  exact ⟨fun k k' t₁ t₁' hk hk' => hch.one k k' t₁ t₁' (htask hk) (htask hk'),
    fun k t₁ hk => hch.stocked k t₁ (htask hk)⟩

/-- A call begins whose job no other task has. -/
theorem append (hr : Rooms formats s) (hjob : ∀ job ∈ t.job, ∀ t' ∈ s.tasks, t'.job ≠ some job)
    (hself : ∀ job ∈ t.job, Stocked formats (s.scratch.lookup job) t.stage) :
    Rooms formats { s with tasks := s.tasks ++ [t] } := by
  refine ⟨fun k k' t₁ t₁' hk hk' job hj hj' => ?_, fun k t₁ hk job hj => ?_⟩
  · rcases of_append hk with hold | ⟨hlast, rfl⟩
    · rcases of_append hk' with hold' | ⟨-, rfl⟩
      · exact hr.one k k' t₁ t₁' hold hold' job hj hj'
      · exact absurd hj (hjob job hj' t₁ (List.mem_of_getElem? hold))
    · rcases of_append hk' with hold' | ⟨hlast', -⟩
      · exact absurd hj' (hjob job hj t₁' (List.mem_of_getElem? hold'))
      · exact hlast.trans hlast'.symm
  · rcases of_append hk with hold | ⟨-, rfl⟩
    · exact hr.stocked k t₁ hold job hj
    · exact hself job hj

theorem crash (hr : Rooms formats s) : Rooms formats { s with tasks := s.tasks.map Task.left } where
  one k k' t t' hk hk' job hj hj' := by
    obtain ⟨t₀, h₀, rfl⟩ := Option.map_eq_some_iff.mp ((List.getElem?_map ..).symm.trans hk)
    obtain ⟨t₀', h₀', rfl⟩ := Option.map_eq_some_iff.mp ((List.getElem?_map ..).symm.trans hk')
    exact hr.one k k' t₀ t₀' h₀ h₀' job (t₀.job_left hj) (t₀'.job_left hj')
  stocked k t hk job hj := by
    obtain ⟨t₀, -, rfl⟩ := Option.map_eq_some_iff.mp ((List.getElem?_map ..).symm.trans hk)
    exact .left t₀ _

section Scratch

variable {job : Job} {stage stage' : Stage}

/-- A task goes on, and changes its scratch directory at most. -/
theorem own (hr : Rooms formats s) (ht : s.tasks[i]? = some ⟨some job, stage⟩)
    {scratch : HashMap Job Directory}
    (hothers : ∀ job', job' ≠ job → scratch.lookup job' = s.scratch.lookup job')
    (hself : Stocked formats (scratch.lookup job) stage') :
    Rooms formats { s.setTask i ⟨some job, stage'⟩ with scratch := scratch } := by
  show Rooms formats { s.setTask i ⟨some job, stage'⟩ with files := s.files, scratch := scratch }
  refine hr.change ht (fun _ h => h) (fun job' h => hothers job' ?_) fun job' h => ?_
  · exact fun heq => h (by rw [heq])
  · obtain rfl := Option.some.inj h
    exact hself

theorem own_scratch (hr : Rooms formats s) (ht : s.tasks[i]? = some ⟨some job, stage⟩)
    {scratch : HashMap Job Directory}
    (hothers : ∀ job', job' ≠ job → scratch.lookup job' = s.scratch.lookup job')
    (hself : Stocked formats (scratch.lookup job) stage) :
    Rooms formats { s with scratch := scratch } := by
  refine hr.of_scratch ht (fun job' h => hothers job' fun heq => h (by rw [heq])) fun job' h => ?_
  obtain rfl := Option.some.inj h
  exact hself

/-- The names of a directory come once each, and each is the digest of what is under it. -/
theorem stocked_convertPuts {dir : Directory} {names : List String} {manifest : Bytes}
    (hdir : IsDirectory formats dir) (hnames : names.Perm (blobNames dir)) :
    Stocked formats (some dir)
      (.moving ⟨convertPuts formats names manifest, .testing, some manifest⟩) := by
  have hnodup : names.Nodup := hnames.symm.nodup (dir.keys_nodup.filter _)
  refine ⟨List.pairwise_append.mpr ⟨?_, List.pairwise_singleton _ _, ?_⟩, fun p hp hbytes => ?_⟩
  · exact List.pairwise_map.mpr (hnodup.imp fun hne _ _ => hne)
  · intro p _ q hq _ hbytes
    obtain rfl := List.mem_singleton.mp hq
    cases hbytes
  · rcases List.mem_append.mp hp with hp | hp
    · obtain ⟨name, hname, rfl⟩ := List.mem_map.mp hp
      have hblob : name ∈ blobNames dir := hnames.subset hname
      obtain ⟨data, hdata⟩ := Option.isSome_iff_exists.mp
        (AList.lookup_isSome.mpr (AList.mem_keys.mpr (List.mem_of_mem_filter hblob)))
      exact ⟨dir, rfl, data, hdata, hdir.1 name hblob data hdata⟩
    · obtain rfl := List.mem_singleton.mp hp
      cases hbytes

end Scratch

section Put

variable {job : Option Job} {m : Moving} {p : Put} {rest : List Put}

/-- **What goes to the pool has the digest that it is put under.** -/
theorem hash_bytesOf (hr : Rooms formats s) (hb : Books formats s)
    (ht : s.tasks[i]? = some ⟨job, .moving m⟩) (hp : p ∈ m.puts) {data : Bytes}
    (hdata : s.bytesOf job p = some data) : formats.sha256 data = p.name := by
  rw [bytesOf] at hdata
  cases hbytes : p.bytes with
  | some bytes =>
    rw [hbytes] at hdata
    exact hb.named i _ ht p hp data (hbytes.trans hdata)
  | none =>
    rw [hbytes, Option.none_or] at hdata
    obtain ⟨job', rfl, hfound⟩ := Option.bind_eq_some_iff.mp hdata
    obtain ⟨d, hd, hfound⟩ := Option.bind_eq_some_iff.mp hfound
    obtain ⟨d', hd', data', hdata', hsha⟩ := (hr.stocked i _ ht job' rfl).2 p hp hbytes
    obtain rfl := Option.some.inj (hd.symm.trans hd')
    obtain rfl := Option.some.inj (hfound.symm.trans hdata')
    exact hsha

theorem next (hr : Rooms formats s) (ht : s.tasks[i]? = some ⟨job, .moving m⟩)
    (hputs : m.puts = p :: rest) {files : Files} :
    Rooms formats { s.setTask i ⟨job, .moving (m.next rest)⟩ with
      files := files, scratch := s.unlink job p } := by
  refine hr.change ht (fun _ h => h) (fun _ h => lookup_unlink h) fun job' hj => ?_
  obtain rfl : job = some job' := hj
  exact (hr.stocked i _ ht job' rfl).next hputs

/-- The first file changes its state, and no file is through. -/
theorem stay (hr : Rooms formats s) (ht : s.tasks[i]? = some ⟨job, .moving m⟩) (pc : PutPc)
    {files : Files} :
    Rooms formats { s.setTask i ⟨job, .moving { m with pc := pc }⟩ with files := files } :=
  hr.change ht (fun _ h => h) (fun _ _ => rfl) fun job' hj => hr.stocked i _ ht job' hj

end Put

end Rooms

/-! ## The two together -/

structure Accounts (formats : Formats) (s : State) : Prop where
  books : Books formats s
  rooms : Rooms formats s

namespace Accounts

theorem putAct (h : Accounts formats s) {job : Option Job} {m : Moving} {p : Put}
    {rest : List Put} (ht : s.tasks[i]? = some ⟨job, .moving m⟩) (hputs : m.puts = p :: rest)
    {a : PutAct} {s' : State} (hok : s.Meets (.put i a))
    (hact : s.putAct i job m p rest a = some s') : Accounts formats s' := by
  obtain ⟨hb, hr⟩ := h
  have hp : p ∈ m.puts := hputs ▸ List.mem_cons_self
  cases a with
  | test =>
    rw [State.putAct] at hact
    split at hact
    · rename_i hpc
      split at hact
      · rename_i hthere
        obtain rfl := Option.some.inj hact
        have hidle : m.writer? = none := Books.writer?_idle (.inl hpc)
        exact ⟨hb.next ht hputs (fun w hw => absurd (hidle.symm.trans hw) (by simp)) hthere,
          hr.next ht hputs⟩
      · obtain rfl := Option.some.inj hact
        exact ⟨hb.absent ht hpc, hr.stay ht .absent⟩
    · cases hact
  | rename =>
    rw [State.putAct] at hact
    split at hact
    · rename_i hpc
      split at hact
      · rename_i data hdata
        obtain rfl := Option.some.inj hact
        exact ⟨hb.rename ht hputs hpc.1 (hr.hash_bytesOf hb ht hp hdata), hr.next ht hputs⟩
      · cases hact
    · cases hact
  | create =>
    rw [State.putAct] at hact
    split at hact
    · rename_i hpc
      split at hact
      · rename_i data hdata
        obtain rfl := Option.some.inj hact
        have hhead : m.puts.head? = some p := by rw [hputs, List.head?_cons]
        have hunwritten : ∀ n ∈ s.files.names.lookup p.name, s.Unwritten n := hok _ ht p hhead
        exact ⟨hb.create ht hputs hpc (hr.hash_bytesOf hb ht hp hdata) hunwritten,
          hr.stay ht (.writing _ data 0)⟩
      · cases hact
    · cases hact
  | write count =>
    rw [State.putAct] at hact
    split at hact
    · rename_i n data k hpc
      split at hact
      · rename_i hcount
        obtain rfl := Option.some.inj hact
        exact ⟨hb.write ht hputs hpc hcount, hr.stay ht (.writing n data (k + count))⟩
      · cases hact
    · cases hact
  | close =>
    rw [State.putAct] at hact
    split at hact
    · rename_i n data k hpc
      split at hact
      · rename_i hk
        obtain rfl := Option.some.inj hact
        exact ⟨hb.close ht hputs hpc hk.1, hr.next ht hputs⟩
      · cases hact
    · cases hact

theorem scratchAct (h : Accounts formats s) {job : Job} {stage : Stage}
    (ht : s.tasks[i]? = some ⟨some job, stage⟩) {a : ScratchAct} {s' : State}
    (hact : s.scratchAct formats i job stage a = some s') : Accounts formats s' := by
  obtain ⟨hb, hr⟩ := h
  have hstocked : Stocked formats (s.scratch.lookup job) stage := hr.stocked i _ ht job rfl
  have hmodify : ∀ (f : Directory → Directory) (job' : Job), job' ≠ job →
      (s.scratch.modify job f).lookup job' = s.scratch.lookup job' :=
    fun _ _ => HashMap.lookup_modify_ne
  have herase : ∀ job' : Job, job' ≠ job →
      (s.scratch.erase job).lookup job' = s.scratch.lookup job' := fun _ => AList.lookup_erase_ne
  cases a with
  | remove name =>
    simp only [State.scratchAct.eq_def] at hact
    split at hact
    · obtain rfl := Option.some.inj hact
      exact ⟨hb.of_scratch _, hr.own_scratch ht (hmodify _) trivial⟩
    · obtain rfl := Option.some.inj hact
      exact ⟨hb.of_scratch _, hr.own_scratch ht (hmodify _) ⟨.nil, by simp⟩⟩
    · cases hact
  | removeDir =>
    simp only [State.scratchAct.eq_def] at hact
    split at hact
    · split at hact
      · obtain rfl := Option.some.inj hact
        exact ⟨hb.idle ht rfl rfl rfl rfl, hr.own ht herase (AList.lookup_erase ..)⟩
      · obtain rfl := Option.some.inj hact
        exact ⟨hb.of_scratch _, hr.own_scratch ht herase ⟨.nil, by simp⟩⟩
      · cases hact
    · cases hact
  | createDir =>
    simp only [State.scratchAct.eq_def] at hact
    split at hact
    · obtain rfl := Option.some.inj hact
      refine ⟨hb.idle ht rfl rfl rfl rfl, hr.own ht (fun _ => AList.lookup_insert_ne) ?_⟩
      have hnone : s.scratch.lookup job = none := hstocked
      rw [hnone]
      exact AList.lookup_insert ..
    · cases hact
  | skopeo name data =>
    simp only [State.scratchAct.eq_def] at hact
    split at hact
    · split at hact
      · obtain rfl := Option.some.inj hact
        exact ⟨hb.idle ht rfl rfl rfl rfl,
          hr.own ht (hmodify _) (HashMap.lookup_modify_self hstocked)⟩
      · obtain rfl := Option.some.inj hact
        exact ⟨hb.of_scratch _, hr.own_scratch ht (hmodify _) trivial⟩
      · cases hact
    · cases hact
  | exit =>
    simp only [State.scratchAct.eq_def] at hact
    split at hact
    · split at hact
      · rename_i wrote hdir
        obtain rfl := Option.some.inj hact
        exact ⟨hb.idle ht rfl rfl rfl rfl, hr.own ht (fun _ _ => rfl) ⟨wrote, hstocked, hdir⟩⟩
      · cases hact
    · obtain rfl := Option.some.inj hact
      exact ⟨hb.idle ht rfl rfl rfl rfl,
        hr.change ht (fun _ h => by cases h) (fun _ _ => rfl) fun _ h => by cases h⟩
    · cases hact
  | readManifest =>
    simp only [State.scratchAct.eq_def] at hact
    split at hact
    · rename_i manifest hmanifest
      obtain rfl := Option.some.inj hact
      obtain ⟨d, hd, hdir⟩ := hstocked
      have hread : d.lookup "manifest.json" = some manifest := by
        obtain ⟨d', hd', hread⟩ := Option.bind_eq_some_iff.mp hmanifest
        obtain rfl := Option.some.inj (hd.symm.trans hd')
        exact hread
      exact ⟨hb.idle ht rfl rfl rfl rfl, hr.own ht (fun _ _ => rfl) ⟨d, hd, hdir, hread⟩⟩
    · cases hact
  | readDir names =>
    simp only [State.scratchAct.eq_def] at hact
    split at hact
    · rename_i manifest dir hlookup
      split at hact
      · rename_i hnames
        obtain rfl := Option.some.inj hact
        obtain ⟨d, hd, hdir, hread⟩ := hstocked
        obtain rfl := Option.some.inj (hlookup.symm.trans hd)
        refine ⟨hb.readDir ht fun h hh => hnames.symm.subset (hdir.2 manifest hread h hh),
          hr.own ht (fun _ _ => rfl) ?_⟩
        rw [hlookup]
        exact Rooms.stocked_convertPuts hdir hnames
      · cases hact
    · cases hact

theorem step (h : Accounts formats s) {a : Action} {s' : State} (hok : s.Meets a)
    (hact : act formats s a = some s') : Accounts formats s' := by
  obtain ⟨hb, hr⟩ := id h
  cases a with
  | convert job =>
    obtain rfl := Option.some.inj hact
    refine ⟨hb.append rfl (fun q hq => by cases hq) (fun m hm => by cases hm),
      hr.append (fun job' hj => ?_) (fun _ _ => trivial)⟩
    obtain rfl := Option.some.inj hj
    exact hok
  | scratch i a =>
    rw [act] at hact
    split at hact
    · rename_i job stage ht
      exact h.scratchAct ht hact
    · cases hact
  | assembleIndex bytes =>
    obtain rfl := Option.some.inj hact
    refine ⟨hb.append rfl (fun q hq data hdata => ?_) (fun m hm => by cases hm),
      hr.append (fun _ hj => by cases hj) (fun _ hj => by cases hj)⟩
    obtain rfl := List.mem_singleton.mp hq
    obtain rfl := Option.some.inj hdata
    rfl
  | put i a =>
    rw [act] at hact
    split at hact
    · rename_i job m ht
      split at hact
      · rename_i p rest hputs
        exact h.putAct ht hputs hok hact
      · cases hact
    · cases hact
  | fail i =>
    rw [act] at hact
    split at hact
    · rename_i t ht
      obtain rfl := Option.some.inj hact
      obtain ⟨hputs, hmanifest, hw⟩ := t.left_empty
      exact ⟨hb.idle ht (hok t ht) hputs hw hmanifest,
        hr.change ht (fun _ => Task.job_left) (fun _ _ => rfl) fun _ _ => .left t _⟩
    · cases hact
  | finish i =>
    rw [act] at hact
    split at hact
    · rename_i job pc manifest ht
      obtain rfl := Option.some.inj hact
      have hover : Rooms formats (s.setTask i ⟨none, .over⟩) :=
        hr.change ht (fun _ h => by cases h) (fun _ _ => rfl) fun _ h => by cases h
      exact ⟨hb.finish ht, hover.one, hover.stocked⟩
    · cases hact
  | crash =>
    obtain rfl := Option.some.inj hact
    exact ⟨hb.crash hok, hr.crash⟩
  | serve hex =>
    rw [act] at hact
    split at hact
    · split at hact
      · rename_i bytes hbytes
        obtain rfl := Option.some.inj hact
        exact ⟨hb.serve hok hbytes, hr.one, hr.stocked⟩
      · cases hact
    · cases hact

end Accounts

/-- **In every run in which nothing meets a file that is being written, and no two calls share a
    scratch directory, the pool is content-addressed.** -/
theorem addressed_of_run (h : Runs (act formats) Meets new s) : Addressed formats s :=
  (h.invariant (I := Accounts formats) ⟨.start, .start⟩ fun h => h.step).books.addressed

instance : (s : State) → (a : Action) → Decidable (s.Meets a)
  | s, .convert job => inferInstanceAs (Decidable (∀ t ∈ s.tasks, t.job ≠ some job))
  | s, .crash => inferInstanceAs (Decidable (∀ t ∈ s.tasks, t.writer? = none))
  | s, .fail i => inferInstanceAs (Decidable (∀ t ∈ s.tasks[i]?, t.writer? = none))
  | s, .serve hex => inferInstanceAs (Decidable (∀ n ∈ s.files.names.lookup hex, s.Unwritten n))
  | s, .put i .create => inferInstanceAs (Decidable (∀ t ∈ s.tasks[i]?, ∀ p ∈ t.puts.head?,
      ∀ n ∈ s.files.names.lookup p.name, s.Unwritten n))
  | _, .put _ .test => isTrue trivial
  | _, .put _ .rename => isTrue trivial
  | _, .put _ (.write _) => isTrue trivial
  | _, .put _ .close => isTrue trivial
  | _, .scratch _ _ => isTrue trivial
  | _, .assembleIndex _ => isTrue trivial
  | _, .finish _ => isTrue trivial

/-! ## An image with no layers -/

/-- The bytes of a text. -/
def ascii (text : String) : Bytes := text.toList.map fun c => UInt8.ofNat c.toNat

/-- `{}` -/
def config : Bytes := [123, 125]

/-- Its digest. -/
def configHex : String := "44136fa355b3678a1146ad16f7e8649e94fb4fc21fe77e8310c060f61caaff8a"

/-- `{"schemaVersion":2,"config":{"digest":"sha256:<configHex>"},"layers":[]}` -/
def manifest : Bytes :=
  [123, 34, 115, 99, 104, 101, 109, 97, 86, 101, 114, 115, 105, 111, 110, 34, 58, 50, 44, 34, 99,
    111, 110, 102, 105, 103, 34, 58, 123, 34, 100, 105, 103, 101, 115, 116, 34, 58, 34, 115, 104,
    97, 50, 53, 54, 58, 52, 52, 49, 51, 54, 102, 97, 51, 53, 53, 98, 51, 54, 55, 56, 97, 49, 49,
    52, 54, 97, 100, 49, 54, 102, 55, 101, 56, 54, 52, 57, 101, 57, 52, 102, 98, 52, 102, 99, 50,
    49, 102, 101, 55, 55, 101, 56, 51, 49, 48, 99, 48, 54, 48, 102, 54, 49, 99, 97, 97, 102, 102,
    56, 97, 34, 125, 44, 34, 108, 97, 121, 101, 114, 115, 34, 58, 91, 93, 125]

/-- Its digest. -/
def manifestHex : String := "990d9ab963b1a78a787e7ba2baec4e94a2c43344b5efd027f2647d1d416a4d8a"

/-- SHA-256 of the two files, and of the empty one. -/
def imageFormats : Formats where
  sha256 bytes :=
    if bytes = config then configHex
    else if bytes = manifest then manifestHex
    else "e3b0c44298fc1c149afbf4c8996fb92427ae41e4649b934ca495991b7852b855"
  references bytes := if bytes = manifest then [configHex] else []

/-- `skopeo` writes the image to an empty directory, and its manifest is read. -/
def skopeoImage (i : ℕ) : List Action :=
  [.scratch i .removeDir, .scratch i .createDir,
    .scratch i (.skopeo "version" (ascii "Directory Transport Version: 1.1\n")),
    .scratch i (.skopeo configHex config), .scratch i (.skopeo "manifest.json" manifest),
    .scratch i .exit, .scratch i .readManifest]

/-- Two jobs have built the image. The second `convert` finds the config, and the manifest too. -/
def pull : List Action :=
  List.flatten [[.convert (1, 7)], skopeoImage 0, [.convert (1, 8)], skopeoImage 1,
    [.scratch 0 (.readDir [configHex]), .scratch 1 (.readDir [configHex]), .put 0 .test,
      .put 0 .rename, .put 1 .test, .put 0 .test, .put 0 .create, .put 0 (.write 100),
      .put 0 (.write 25), .put 0 .close, .put 1 .test, .scratch 0 (.remove "version"),
      .scratch 0 (.remove "manifest.json"), .scratch 0 .removeDir, .finish 0, .finish 1,
      .serve manifestHex, .serve configHex]]

theorem addressed_of_run_pull :
    ∃ s, Runs (act imageFormats) Meets new s ∧
      s.served = [(manifestHex, manifest), (configHex, config)] ∧
      s.published = [manifest, manifest] ∧ Addressed imageFormats s := by
  have hresult : (script (act imageFormats) Meets new pull).map
      (fun s => (s.served, s.published)) =
        some ([(manifestHex, manifest), (configHex, config)], [manifest, manifest]) := by
    decide +kernel
  obtain ⟨s, hs, hresult⟩ := Option.map_eq_some_iff.mp hresult
  obtain ⟨hserved, hpublished⟩ := Prod.mk.inj hresult
  exact ⟨s, .of_script hs, hserved, hpublished, addressed_of_run (.of_script hs)⟩

/-- The daemon crashes where the manifest is created and nothing is written. The next `convert`
    finds the empty file and publishes the image, and that file is what is served. -/
def crashInManifest : List Action :=
  List.flatten [[.convert (1, 7)], skopeoImage 0,
    [.scratch 0 (.readDir [configHex]), .put 0 .test, .put 0 .rename, .put 0 .test, .put 0 .create,
      .crash, .convert (1, 7), .scratch 1 (.remove "version"),
      .scratch 1 (.remove "manifest.json")], skopeoImage 1,
    [.scratch 1 (.readDir [configHex]), .put 1 .test, .put 1 .test, .finish 1, .serve manifestHex]]

theorem not_addressed_crash :
    ¬ ∀ (formats : Formats) (s : State), Runs (act formats) Always new s → Addressed formats s := by
  intro h
  have hserved : (script (act imageFormats) Always new crashInManifest).map State.served =
      some [(manifestHex, [])] := by decide +kernel
  obtain ⟨s, hs, hserved⟩ := Option.map_eq_some_iff.mp hserved
  have hsha := (h imageFormats s (.of_script hs)).served (manifestHex, []) (by simp [hserved])
  exact absurd hsha (by decide +kernel)

/-- The job is published once more while the first call has read its manifest. What the first call
    then moves is the second one's empty directory. -/
def convertTwice : List Action :=
  List.flatten [[.convert (1, 7)], skopeoImage 0,
    [.convert (1, 7), .scratch 1 (.remove "version"), .scratch 1 (.remove configHex),
      .scratch 1 (.remove "manifest.json"), .scratch 1 .removeDir, .scratch 1 .createDir,
      .scratch 0 (.readDir []), .put 0 .test, .put 0 .create, .put 0 (.write 125), .put 0 .close,
      .finish 0]]

/-- **The image is published and its config is not in the pool**, without a crash or an error. -/
theorem not_addressed_twice :
    ∃ s, Runs (act imageFormats) Always new s ∧ s.published = [manifest] ∧
      s.files.names.lookup configHex = none := by
  have hresult : (script (act imageFormats) Always new convertTwice).map
      (fun s => (s.published, s.files.names.lookup configHex)) = some ([manifest], none) := by
    decide +kernel
  obtain ⟨s, hs, hresult⟩ := Option.map_eq_some_iff.mp hresult
  obtain ⟨hpublished, hlookup⟩ := Prod.mk.inj hresult
  exact ⟨s, .of_script hs, hpublished, hlookup⟩

end State

end Argunix.Registry.BlobPool
