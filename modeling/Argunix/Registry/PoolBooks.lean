import Argunix.Registry.BlobPool

/-!
# The books of the blob pool

What the pool holds, and what the tasks are doing to it: a file is what its name says, or some task
is filling it; and what a manifest refers to is there, or its task has still to bring it. There is
one lemma for each thing that a task can do to the files. Where a task's bytes come from is not
asked here: that they have the digest they are put under is a hypothesis, and `Scratch.lean` has it.
-/

set_option autoImplicit false

namespace Argunix.Registry.BlobPool

open Argunix.Lib

namespace State

variable {formats : Formats} {s : State} {i : ℕ} {t : Task}

/-! ## The pool -/

/-- What the pool holds, and what the tasks are doing to it. -/
structure Books (formats : Formats) (s : State) : Prop where
  named : ∀ (i : ℕ) (t : Task), s.tasks[i]? = some t → ∀ p ∈ t.puts, ∀ bytes ∈ p.bytes,
    formats.sha256 bytes = p.name
  /-- A file that is being filled holds what was written, and is there. -/
  partly : ∀ (i : ℕ) (w : Writer), s.WriterAt i w →
    s.files.inodes[w.inode]? = some (w.data.take w.written) ∧
      w.written ≤ w.data.length ∧ formats.sha256 w.data = w.name ∧
      (s.files.names.lookup w.name).isSome = true
  alone : ∀ (i i' : ℕ) (w w' : Writer), s.WriterAt i w → s.WriterAt i' w' →
    w.inode = w'.inode → i = i'
  /-- Every other file is what its name says. -/
  whole : ∀ h n, s.files.names.lookup h = some n →
    (∃ c, s.files.inodes[n]? = some c ∧ formats.sha256 c = h) ∨
      ∃ i w, s.WriterAt i w ∧ w.inode = n ∧ w.name = h
  own : ∀ (i : ℕ) (w : Writer) (h : String), s.WriterAt i w →
    s.files.names.lookup h = some w.inode → h = w.name
  one : ∀ h h' n, s.files.names.lookup h = some n → s.files.names.lookup h' = some n → h = h'
  /-- What a manifest refers to is there or still to come. -/
  todo : ∀ (i : ℕ) (t : Task), s.tasks[i]? = some t → ∀ m ∈ t.manifest,
    ∀ h ∈ formats.sha256 m :: formats.references m,
      (∃ p ∈ t.puts, p.name = h) ∨ (s.files.names.lookup h).isSome = true
  addressed : Addressed formats s

namespace Books

theorem start : Books formats new where
  named i t h := absurd h (by simp [new])
  partly i w h := by
    obtain ⟨t, ht, -⟩ := h
    cases ht
  alone i i' w w' h := by
    obtain ⟨t, ht, -⟩ := h
    cases ht
  whole h n hl := by cases hl
  own i w h hw := by
    obtain ⟨t, ht, -⟩ := hw
    cases ht
  one h h' n hl := by cases hl
  todo i t h := absurd h (by simp [new])
  addressed := ⟨fun x hx => absurd hx (by simp [new]), fun m hm => absurd hm (by simp [new])⟩

theorem lt_of_lookup (hb : Books formats s) {h : String} {n : ℕ}
    (hl : s.files.names.lookup h = some n) : n < s.files.inodes.length := by
  rcases hb.whole h n hl with ⟨c, hc, -⟩ | ⟨i, w, hw, rfl, -⟩
  · exact (List.getElem?_eq_some_iff.mp hc).1
  · exact (List.getElem?_eq_some_iff.mp (hb.partly i w hw).1).1

theorem lt_of_writer (hb : Books formats s) {w : Writer} (hw : s.WriterAt i w) :
    w.inode < s.files.inodes.length :=
  (List.getElem?_eq_some_iff.mp (hb.partly i w hw).1).1

/-- **One task changes, and with it the files.** The other writers keep theirs. -/
theorem change (hb : Books formats s) (ht : s.tasks[i]? = some t) {t' : Task} {files : Files}
    {scratch : HashMap Job Directory}
    (hnamed : ∀ p ∈ t'.puts, ∀ bytes ∈ p.bytes, formats.sha256 bytes = p.name)
    (hkept : ∀ h, (s.files.names.lookup h).isSome = true → (files.names.lookup h).isSome = true)
    (hothers : ∀ (k : ℕ) (w : Writer), k ≠ i → s.WriterAt k w →
      files.inodes[w.inode]? = s.files.inodes[w.inode]? ∧
        ∀ h, files.names.lookup h = some w.inode → h = w.name)
    (hself : ∀ w, t'.writer? = some w →
      (files.inodes[w.inode]? = some (w.data.take w.written) ∧
        w.written ≤ w.data.length ∧ formats.sha256 w.data = w.name ∧
        (files.names.lookup w.name).isSome = true) ∧
      (∀ (k : ℕ) (w' : Writer), k ≠ i → s.WriterAt k w' → w'.inode ≠ w.inode) ∧
      ∀ h, files.names.lookup h = some w.inode → h = w.name)
    (hwhole : ∀ h n, files.names.lookup h = some n →
      (∃ c, files.inodes[n]? = some c ∧ formats.sha256 c = h) ∨
      (∃ w, t'.writer? = some w ∧ w.inode = n ∧ w.name = h) ∨
      ∃ k w, k ≠ i ∧ s.WriterAt k w ∧ w.inode = n ∧ w.name = h)
    (hone : ∀ h h' n, files.names.lookup h = some n → files.names.lookup h' = some n → h = h')
    (htodo : ∀ m ∈ t'.manifest, ∀ h ∈ formats.sha256 m :: formats.references m,
      (∃ p ∈ t'.puts, p.name = h) ∨ (files.names.lookup h).isSome = true) :
    Books formats { s.setTask i t' with files := files, scratch := scratch } := by
  set s' : State := { s.setTask i t' with files := files, scratch := scratch } with hs'
  have hcases : ∀ {k : ℕ} {w : Writer}, s'.WriterAt k w →
      (k = i ∧ t'.writer? = some w) ∨ (k ≠ i ∧ s.WriterAt k w) := writerAt_cases ht rfl
  refine ⟨fun k t₁ hk p hp => ?_, fun k w hk => ?_, fun k k' w w' hk hk' heq => ?_,
    fun h n hl => ?_, fun k w h hk hl => ?_, hone, fun k t₁ hk m hm h hh => ?_,
    hb.addressed.served, fun m hm h hh => hkept h (hb.addressed.published m hm h hh)⟩
  · rcases of_setTask ht hk with ⟨rfl, rfl⟩ | ⟨-, hk⟩
    · exact hnamed p hp
    · exact hb.named k t₁ hk p hp
  · rcases hcases hk with ⟨-, hw⟩ | ⟨hne, hk⟩
    · exact (hself w hw).1
    · obtain ⟨hcontent, hlen, hhash, hthere⟩ := hb.partly k w hk
      exact ⟨(hothers k w hne hk).1.trans hcontent, hlen, hhash, hkept _ hthere⟩
  · rcases hcases hk with ⟨hki, hw⟩ | ⟨hne, hold⟩
    · rcases hcases hk' with ⟨hki', -⟩ | ⟨hne', hold'⟩
      · exact hki.trans hki'.symm
      · exact absurd heq.symm ((hself w hw).2.1 k' w' hne' hold')
    · rcases hcases hk' with ⟨-, hw'⟩ | ⟨-, hold'⟩
      · exact absurd heq ((hself w' hw').2.1 k w hne hold)
      · exact hb.alone k k' w w' hold hold' heq
  · rcases hwhole h n hl with hc | ⟨w, hw, hn, hname⟩ | ⟨k, w, hne, hk, hn, hname⟩
    · exact .inl hc
    · exact .inr ⟨i, w, ⟨t', (getElem?_setTask ht t' i).trans (if_pos rfl), hw⟩, hn, hname⟩
    · exact .inr ⟨k, w, hk.of_ne ht rfl hne, hn, hname⟩
  · rcases hcases hk with ⟨-, hw⟩ | ⟨hne, hk⟩
    · exact (hself w hw).2.2 h hl
    · exact (hothers k w hne hk).2 h hl
  · rcases of_setTask ht hk with ⟨rfl, rfl⟩ | ⟨-, hk⟩
    · exact htodo m hm h hh
    · exact (hb.todo k t₁ hk m hm h hh).imp_right (hkept h)

/-- A task goes on and writes nothing. If it was filling a file, that file is finished. -/
theorem setTask (hb : Books formats s) (ht : s.tasks[i]? = some t)
    (hw : ∀ w, t.writer? = some w → w.written = w.data.length) {t' : Task}
    (hw' : t'.writer? = none) {scratch : HashMap Job Directory}
    (hnamed : ∀ p ∈ t'.puts, ∀ bytes ∈ p.bytes, formats.sha256 bytes = p.name)
    (htodo : ∀ m ∈ t'.manifest, ∀ h ∈ formats.sha256 m :: formats.references m,
      (∃ p ∈ t'.puts, p.name = h) ∨ (s.files.names.lookup h).isSome = true) :
    Books formats { s.setTask i t' with scratch := scratch } := by
  show Books formats { s.setTask i t' with files := s.files, scratch := scratch }
  refine hb.change ht hnamed (fun h hh => hh) (fun k w _ hk => ⟨rfl, fun h => hb.own k w h hk⟩)
    (fun w hnone => absurd (hw'.symm.trans hnone) (by simp)) (fun h n hl => ?_) hb.one htodo
  rcases hb.whole h n hl with hc | ⟨k, w, hk, hn, hname⟩
  · exact .inl hc
  · by_cases hki : k = i
    · -- the file that was just finished
      subst hki
      obtain ⟨t₁, ht₁, hw₁⟩ := id hk
      obtain rfl := Option.some.inj (ht.symm.trans ht₁)
      obtain ⟨hcontent, -, hhash, -⟩ := hb.partly k w hk
      rw [hw w hw₁, List.take_length, hn] at hcontent
      exact .inl ⟨_, hcontent, hhash.trans hname⟩
    · exact .inr (.inr ⟨k, w, hki, hk, hn, hname⟩)

/-- A new file comes to the pool, which is either whole or the one the task begins to fill. -/
theorem fresh (hb : Books formats s) (ht : s.tasks[i]? = some t) (hw : t.writer? = none)
    {t' : Task} {name : String} {data content : Bytes} {scratch : HashMap Job Directory}
    (hhash : formats.sha256 data = name) (hputs : ∀ q ∈ t'.puts, q ∈ t.puts)
    (hnew : (t'.writer? = none ∧ content = data) ∨
      (t'.writer? = some ⟨s.files.inodes.length, name, data, 0⟩ ∧ content = []))
    (htodo : ∀ m ∈ t'.manifest, ∀ h ∈ formats.sha256 m :: formats.references m,
      (∃ q ∈ t'.puts, q.name = h) ∨
        ((s.files.rename name content).names.lookup h).isSome = true) :
    Books formats { s.setTask i t' with
      files := s.files.rename name content, scratch := scratch } := by
  have hlast : (s.files.rename name content).inodes[s.files.inodes.length]? = some content :=
    List.getElem?_concat_length
  -- a name that leads to the new file, and one that leads to an old one
  have hlookup : ∀ {h : String} {n : ℕ},
      (s.files.rename name content).names.lookup h = some n →
      (h = name ∧ n = s.files.inodes.length) ∨
        (s.files.names.lookup h = some n ∧ n < s.files.inodes.length) := by
    intro h n hl
    rw [Files.lookup_rename] at hl
    split at hl
    · rename_i heq
      exact .inl ⟨heq, (Option.some.inj hl).symm⟩
    · exact .inr ⟨hl, hb.lt_of_lookup hl⟩
  refine hb.change ht (fun q hq => hb.named i t ht q (hputs q hq)) (fun h => Files.isSome_rename)
    (fun k w hne hk => ⟨?_, fun h hl => ?_⟩) (fun w hw' => ?_) (fun h n hl => ?_)
    (fun h h' n hl hl' => ?_) htodo
  · exact Files.getElem?_rename (hb.lt_of_writer hk)
  · rcases hlookup hl with ⟨-, hn⟩ | ⟨hl, -⟩
    · exact absurd hn (hb.lt_of_writer hk).ne
    · exact hb.own k w h hk hl
  · rcases hnew with ⟨hnone, -⟩ | ⟨hsome, rfl⟩
    · exact absurd (hnone.symm.trans hw') (by simp)
    · obtain rfl := Option.some.inj (hsome.symm.trans hw')
      refine ⟨⟨hlast, Nat.zero_le _, hhash, ?_⟩, fun k w' _ hk => (hb.lt_of_writer hk).ne,
        fun h hl => ?_⟩
      · show ((s.files.rename name []).names.lookup name).isSome = true
        rw [Files.lookup_rename, if_pos rfl]
        rfl
      · rcases hlookup hl with ⟨heq, -⟩ | ⟨-, hlt⟩
        · exact heq
        · exact absurd hlt (lt_irrefl _)
  · rcases hlookup hl with ⟨rfl, rfl⟩ | ⟨hl, hlt⟩
    · rcases hnew with ⟨-, rfl⟩ | ⟨hsome, -⟩
      · exact .inl ⟨_, hlast, hhash⟩
      · exact .inr (.inl ⟨_, hsome, rfl, rfl⟩)
    · rcases hb.whole h n hl with ⟨c, hc, hh⟩ | ⟨k, w, hk, hn, hname⟩
      · exact .inl ⟨c, (Files.getElem?_rename hlt).trans hc, hh⟩
      · refine .inr (.inr ⟨k, w, fun hki => ?_, hk, hn, hname⟩)
        obtain ⟨t₁, ht₁, hw₁⟩ := hk
        rw [hki, ht] at ht₁
        obtain rfl := Option.some.inj ht₁
        exact absurd (hw.symm.trans hw₁) (by simp)
  · rcases hlookup hl with ⟨rfl, rfl⟩ | ⟨hl, hlt⟩
    · rcases hlookup hl' with ⟨rfl, -⟩ | ⟨-, hlt'⟩
      · rfl
      · exact absurd hlt' (lt_irrefl _)
    · rcases hlookup hl' with ⟨-, rfl⟩ | ⟨hl', -⟩
      · exact absurd hlt (lt_irrefl _)
      · exact hb.one h h' n hl hl'

/-- A task empties a file that is there, or writes the next chunk of the one it is filling. -/
theorem refill (hb : Books formats s) (ht : s.tasks[i]? = some t) {t' : Task} {w : Writer}
    {files : Files} (hw' : t'.writer? = some w) (hputs : t'.puts = t.puts)
    (hmanifest : t'.manifest = t.manifest) (hhash : formats.sha256 w.data = w.name)
    (hnames : files.names = s.files.names)
    (hcontent : files.inodes[w.inode]? = some (w.data.take w.written))
    (hlen : w.written ≤ w.data.length)
    (hrest : ∀ n, n ≠ w.inode → files.inodes[n]? = s.files.inodes[n]?)
    (hwas : ∀ v, t.writer? = some v → v.inode = w.inode ∧ v.name = w.name)
    (hl : s.files.names.lookup w.name = some w.inode ∨ ∃ v, t.writer? = some v)
    (halone : ∀ (k : ℕ) (v : Writer), k ≠ i → s.WriterAt k v → v.inode ≠ w.inode) :
    Books formats { s.setTask i t' with files := files } := by
  have hname : ∀ h, s.files.names.lookup h = some w.inode → h = w.name := by
    intro h hh
    rcases hl with hl | ⟨v, hv⟩
    · exact hb.one h _ _ hh hl
    · obtain ⟨hinode, hname⟩ := hwas v hv
      rw [← hname]
      exact hb.own i v h ⟨t, ht, hv⟩ (hinode ▸ hh)
  have hthere : (s.files.names.lookup w.name).isSome = true := by
    rcases hl with hl | ⟨v, hv⟩
    · rw [hl]
      rfl
    · rw [← (hwas v hv).2]
      exact (hb.partly i v ⟨t, ht, hv⟩).2.2.2
  refine hb.change ht (fun p hp => hb.named i t ht p (hputs ▸ hp)) (fun h hh => hnames ▸ hh)
    (fun k v hne hk => ⟨hrest _ (halone k v hne hk), fun h hh => hb.own k v h hk (hnames ▸ hh)⟩)
    (fun v hv => ?_) (fun h n hh => ?_) (fun h h' n hh hh' => ?_) (fun m hm h hh => ?_)
  · obtain rfl := Option.some.inj (hw'.symm.trans hv)
    exact ⟨⟨hcontent, hlen, hhash, hnames ▸ hthere⟩, halone,
      fun h hh => hname h (hnames ▸ hh)⟩
  · rw [hnames] at hh
    by_cases hn : n = w.inode
    · subst hn
      exact .inr (.inl ⟨w, hw', rfl, (hname h hh).symm⟩)
    · rcases hb.whole h n hh with ⟨c, hc, hsha⟩ | ⟨k, v, hk, hv, hvname⟩
      · exact .inl ⟨c, (hrest n hn).trans hc, hsha⟩
      · by_cases hki : k = i
        · -- what the task was filling before is the file it is filling now
          obtain ⟨t₁, ht₁, hv₁⟩ := hk
          rw [hki, ht] at ht₁
          obtain rfl := Option.some.inj ht₁
          exact absurd (hv.symm.trans (hwas v hv₁).1) hn
        · exact .inr (.inr ⟨k, v, hki, hk, hv, hvname⟩)
  · rw [hnames] at hh hh'
    exact hb.one h h' n hh hh'
  · rw [hmanifest] at hm
    rw [hputs, hnames]
    exact hb.todo i t ht m hm h hh

/-- A call begins. -/
theorem append (hb : Books formats s) (hw : t.writer? = none)
    (hnamed : ∀ p ∈ t.puts, ∀ bytes ∈ p.bytes, formats.sha256 bytes = p.name)
    (htodo : ∀ m ∈ t.manifest, ∀ h ∈ formats.sha256 m :: formats.references m,
      ∃ p ∈ t.puts, p.name = h) :
    Books formats { s with tasks := s.tasks ++ [t] } := by
  have hold : ∀ {k : ℕ} {w : Writer},
      WriterAt { s with tasks := s.tasks ++ [t] } k w → s.WriterAt k w := by
    intro k w hk
    obtain ⟨t₁, hk, hw₁⟩ := hk
    rcases of_append hk with hk | ⟨-, rfl⟩
    · exact ⟨t₁, hk, hw₁⟩
    · exact absurd (hw.symm.trans hw₁) (by simp)
  have hnew : ∀ {k : ℕ} {w : Writer}, s.WriterAt k w →
      WriterAt { s with tasks := s.tasks ++ [t] } k w := by
    intro k w hk
    obtain ⟨t₁, hk, hw₁⟩ := hk
    have hlt := (List.getElem?_eq_some_iff.mp hk).1
    exact ⟨t₁, (List.getElem?_append_left hlt).trans hk, hw₁⟩
  refine ⟨fun k t₁ hk p hp => ?_, fun k w hk => hb.partly k w (hold hk),
    fun k k' w w' hk hk' => hb.alone k k' w w' (hold hk) (hold hk'), fun h n hl => ?_,
    fun k w h hk => hb.own k w h (hold hk), hb.one, fun k t₁ hk m hm h hh => ?_,
    hb.addressed.served, hb.addressed.published⟩
  · rcases of_append hk with hk | ⟨-, rfl⟩
    · exact hb.named k t₁ hk p hp
    · exact hnamed p hp
  · rcases hb.whole h n hl with hc | ⟨k, w, hk, hn, hname⟩
    · exact .inl hc
    · exact .inr ⟨k, w, hnew hk, hn, hname⟩
  · rcases of_append hk with hk | ⟨-, rfl⟩
    · exact hb.todo k t₁ hk m hm h hh
    · exact .inl (htodo m hm h hh)

/-- The scratch directories are not part of the pool. -/
theorem of_scratch (hb : Books formats s) (scratch : HashMap Job Directory) :
    Books formats { s with scratch := scratch } :=
  ⟨hb.named, hb.partly, hb.alone, hb.whole, hb.own, hb.one, hb.todo,
    hb.addressed.served, hb.addressed.published⟩

/-- A task that fills no file goes on to where it has none to bring. -/
theorem idle (hb : Books formats s) (ht : s.tasks[i]? = some t) (hw : t.writer? = none) {t' : Task}
    (hputs : t'.puts = []) (hw' : t'.writer? = none) (hmanifest : t'.manifest = none)
    {scratch : HashMap Job Directory} :
    Books formats { s.setTask i t' with scratch := scratch } :=
  hb.setTask ht (fun w h => absurd (hw.symm.trans h) (by simp)) hw'
    (fun p hp => absurd (hputs ▸ hp) (by simp)) (fun m hm => absurd (hmanifest ▸ hm) (by simp))

/-- The daemon stops where no file is being filled. -/
theorem crash (hb : Books formats s) (hw : ∀ t ∈ s.tasks, t.writer? = none) :
    Books formats { s with tasks := s.tasks.map Task.left } := by
  have hnone : ∀ {k : ℕ} {w : Writer}, ¬ s.WriterAt k w := by
    intro k w hk
    obtain ⟨t, ht, hwt⟩ := hk
    exact absurd ((hw t (List.mem_of_getElem? ht)).symm.trans hwt) (by simp)
  have hleft : ∀ {k : ℕ} {t : Task}, (s.tasks.map Task.left)[k]? = some t →
      t.puts = [] ∧ t.manifest = none ∧ t.writer? = none := by
    intro k t hk
    rw [List.getElem?_map] at hk
    obtain ⟨t₀, -, rfl⟩ := Option.map_eq_some_iff.mp hk
    exact t₀.left_empty
  have hgone : ∀ {k : ℕ} {w : Writer},
      ¬ WriterAt { s with tasks := s.tasks.map Task.left } k w := by
    intro k w hk
    obtain ⟨t, ht, hwt⟩ := hk
    exact absurd ((hleft ht).2.2.symm.trans hwt) (by simp)
  refine ⟨fun k t hk p hp => ?_, fun k w hk => absurd hk hgone, fun k k' w w' hk => absurd hk hgone,
    fun h n hl => ?_, fun k w h hk => absurd hk hgone, hb.one, fun k t hk m hm => ?_,
    hb.addressed.served, hb.addressed.published⟩
  · rw [(hleft hk).1] at hp
    cases hp
  · rcases hb.whole h n hl with hc | ⟨k, w, hk, -⟩
    · exact .inl hc
    · exact absurd hk hnone
  · rw [(hleft hk).2.1] at hm
    cases hm

theorem serve (hb : Books formats s) {hex : String} {bytes : Bytes}
    (hmeets : ∀ n ∈ s.files.names.lookup hex, s.Unwritten n)
    (hbytes : s.files.contents hex = some bytes) :
    Books formats { s with served := s.served ++ [(hex, bytes)] } := by
  have hsha : formats.sha256 bytes = hex := by
    obtain ⟨n, hl, hn⟩ := Option.bind_eq_some_iff.mp hbytes
    rcases hb.whole hex n hl with ⟨c, hc, hsha⟩ | ⟨k, w, hk, hw, -⟩
    · obtain rfl := Option.some.inj (hc.symm.trans hn)
      exact hsha
    · exact absurd hw ((hmeets n hl).ne hk)
  refine { hb with addressed := ⟨fun x hx => ?_, hb.addressed.published⟩ }
  rcases List.mem_append.mp hx with hx | hx
  · exact hb.addressed.served x hx
  · obtain rfl := List.mem_singleton.mp hx
    exact hsha

/-- **All files of the manifest are through, and it is published.** -/
theorem finish (hb : Books formats s) {job : Option Job} {pc : PutPc} {manifest : Bytes}
    (ht : s.tasks[i]? = some ⟨job, .moving ⟨[], pc, some manifest⟩⟩) :
    Books formats { s.setTask i ⟨none, .over⟩ with
      published := s.published ++ [manifest] } := by
  have hnone : Moving.writer? ⟨[], pc, some manifest⟩ = none := by
    cases pc <;> rfl
  have hset : Books formats { s.setTask i ⟨none, .over⟩ with scratch := s.scratch } :=
    hb.idle ht hnone rfl rfl rfl
  refine { hset with addressed := ⟨hb.addressed.served, fun m hm h hh => ?_⟩ }
  rcases List.mem_append.mp hm with hm | hm
  · exact hb.addressed.published m hm h hh
  · obtain rfl := List.mem_singleton.mp hm
    rcases hb.todo i _ ht m rfl h hh with ⟨p, hp, -⟩ | hthere
    · cases hp
    · exact hthere

/-- **The files of a directory are on their way.** All that the manifest needs is among them. -/
theorem readDir (hb : Books formats s) {job : Option Job} {manifest : Bytes} {names : List String}
    (ht : s.tasks[i]? = some ⟨job, .manifestRead manifest⟩)
    (hrefs : ∀ h ∈ formats.references manifest, h ∈ names) :
    Books formats (s.setTask i
      ⟨job, .moving ⟨convertPuts formats names manifest, .testing, some manifest⟩⟩) := by
  refine hb.setTask ht (fun w hw => by cases hw) rfl (fun p hp bytes hbytes => ?_)
    (fun m hm h hh => .inl ?_)
  · rcases List.mem_append.mp hp with hp | hp
    · obtain ⟨name, -, rfl⟩ := List.mem_map.mp hp
      cases hbytes
    · obtain rfl := List.mem_singleton.mp hp
      obtain rfl := Option.some.inj hbytes
      rfl
  · obtain rfl := Option.some.inj hm
    rcases List.mem_cons.mp hh with rfl | hh
    · exact ⟨_, List.mem_append_right _ (List.mem_singleton_self _), rfl⟩
    · exact ⟨_, List.mem_append_left _ (List.mem_map_of_mem (hrefs h hh)), rfl⟩

section Put

variable {job : Option Job} {m : Moving} {p : Put} {rest : List Put}

/-- What is left to come once the first file is there. -/
theorem todo_next (hb : Books formats s) (ht : s.tasks[i]? = some ⟨job, .moving m⟩)
    (hputs : m.puts = p :: rest) {names : HashMap String ℕ}
    (hkept : ∀ h, (s.files.names.lookup h).isSome = true → (names.lookup h).isSome = true)
    (hp : (names.lookup p.name).isSome = true) :
    ∀ manifest ∈ m.manifest, ∀ h ∈ formats.sha256 manifest :: formats.references manifest,
      (∃ q ∈ rest, q.name = h) ∨ (names.lookup h).isSome = true := by
  intro manifest hm h hh
  rcases hb.todo i _ ht manifest hm h hh with ⟨q, hq, rfl⟩ | hthere
  · rcases List.mem_cons.mp (hputs ▸ hq : q ∈ p :: rest) with rfl | hq
    · exact .inr hp
    · exact .inl ⟨q, hq, rfl⟩
  · exact .inr (hkept h hthere)

theorem mem_puts_next (hputs : m.puts = p :: rest) : ∀ q ∈ (m.next rest).puts, q ∈ m.puts := by
  intro q hq
  rw [hputs]
  exact List.mem_cons_of_mem p hq

/-- Before its file is opened a task fills nothing. -/
theorem writer?_idle (hpc : m.pc = .testing ∨ m.pc = .absent) : m.writer? = none := by
  rcases hpc with hpc | hpc <;> rw [Moving.writer?, hpc]

/-- The first file is there, and the next one is tested. -/
theorem next (hb : Books formats s) (ht : s.tasks[i]? = some ⟨job, .moving m⟩)
    (hputs : m.puts = p :: rest) (hw : ∀ w, m.writer? = some w → w.written = w.data.length)
    (hp : (s.files.names.lookup p.name).isSome = true) {scratch : HashMap Job Directory} :
    Books formats { s.setTask i ⟨job, .moving (m.next rest)⟩ with scratch := scratch } :=
  hb.setTask ht hw rfl (fun q hq => hb.named i _ ht q (mem_puts_next hputs q hq))
    (hb.todo_next ht hputs (fun _ hh => hh) hp)

theorem absent (hb : Books formats s) (ht : s.tasks[i]? = some ⟨job, .moving m⟩)
    (hpc : m.pc = .testing) :
    Books formats (s.setTask i ⟨job, .moving { m with pc := .absent }⟩) :=
  hb.setTask ht (fun w hw => absurd ((writer?_idle (.inl hpc)).symm.trans hw) (by simp)) rfl
    (fun q hq => hb.named i _ ht q hq) (fun m' hm => hb.todo i _ ht m' hm)

theorem rename (hb : Books formats s) (ht : s.tasks[i]? = some ⟨job, .moving m⟩)
    (hputs : m.puts = p :: rest) (hpc : m.pc = .absent) {data : Bytes}
    (hhash : formats.sha256 data = p.name) {scratch : HashMap Job Directory} :
    Books formats { s.setTask i ⟨job, .moving (m.next rest)⟩ with
      files := s.files.rename p.name data, scratch := scratch } := by
  refine hb.fresh ht (writer?_idle (.inr hpc)) hhash (mem_puts_next hputs) (.inl ⟨rfl, rfl⟩)
    (hb.todo_next ht hputs (fun h => Files.isSome_rename) ?_)
  rw [Files.lookup_rename, if_pos rfl]
  rfl

theorem create (hb : Books formats s) (ht : s.tasks[i]? = some ⟨job, .moving m⟩)
    (hputs : m.puts = p :: rest) (hpc : m.pc = .absent) {data : Bytes}
    (hhash : formats.sha256 data = p.name)
    (hok : ∀ n ∈ s.files.names.lookup p.name, s.Unwritten n) :
    Books formats { s.setTask i
        ⟨job, .moving { m with pc := .writing (s.files.create p.name).1 data 0 }⟩ with
      files := (s.files.create p.name).2 } := by
  have hnone : m.writer? = none := writer?_idle (.inr hpc)
  have hwriter : ∀ n, Moving.writer? { m with pc := .writing n data 0 } =
      some ⟨n, p.name, data, 0⟩ := fun n => by rw [Moving.writer?, hputs]
  cases hl : s.files.names.lookup p.name with
  | none =>
    have hcreate : s.files.create p.name = (s.files.inodes.length, s.files.rename p.name []) := by
      rw [Files.create, hl]
      rfl
    rw [hcreate]
    exact hb.fresh ht hnone hhash (fun q hq => hq) (.inr ⟨hwriter _, rfl⟩)
      (fun m' hm h hh => (hb.todo i _ ht m' hm h hh).imp_right Files.isSome_rename)
  | some n =>
    have hcreate : s.files.create p.name =
        (n, { s.files with inodes := s.files.inodes.set n [] }) := by
      rw [Files.create, hl]
    rw [hcreate]
    refine hb.refill (w := ⟨n, p.name, data, 0⟩) ht (hwriter n) rfl rfl hhash rfl ?_
      (Nat.zero_le _) (fun k hk => ?_) (fun v hv => absurd (hnone.symm.trans hv) (by simp))
      (.inl hl) (fun k v _ hk => (hok n hl).ne hk)
    · exact List.getElem?_set_self (hb.lt_of_lookup hl)
    · exact List.getElem?_set_ne (Ne.symm hk)

variable {n k : ℕ} {data : Bytes}

theorem writer?_writing (hputs : m.puts = p :: rest) (hpc : m.pc = .writing n data k) :
    m.writer? = some ⟨n, p.name, data, k⟩ := by
  rw [Moving.writer?, hpc, hputs]

theorem write (hb : Books formats s) (ht : s.tasks[i]? = some ⟨job, .moving m⟩)
    (hputs : m.puts = p :: rest) (hpc : m.pc = .writing n data k) {count : ℕ}
    (hcount : k + count ≤ data.length) :
    Books formats { s.setTask i ⟨job, .moving { m with pc := .writing n data (k + count) }⟩ with
      files := s.files.write n k ((data.drop k).take count) } := by
  have hwriter : m.writer? = some ⟨n, p.name, data, k⟩ := writer?_writing hputs hpc
  obtain ⟨hcontent, hk, hhash, -⟩ := hb.partly i _ ⟨_, ht, hwriter⟩
  refine hb.refill (w := ⟨n, p.name, data, k + count⟩) ht (writer?_writing hputs rfl) rfl rfl hhash
    rfl ?_ hcount (fun m hm => ?_) (fun v hv => ?_) (.inr ⟨_, hwriter⟩) (fun j v hne hj heq => ?_)
  · show (s.files.inodes.modify n _)[n]? = _
    rw [List.getElem?_modify_eq, hcontent]
    exact congrArg some (Files.writeAt_take hk)
  · exact List.getElem?_modify_ne _ _ (Ne.symm hm)
  · obtain rfl := Option.some.inj (hwriter.symm.trans hv)
    exact ⟨rfl, rfl⟩
  · exact hne (hb.alone j i v _ hj ⟨_, ht, hwriter⟩ heq)

theorem close (hb : Books formats s) (ht : s.tasks[i]? = some ⟨job, .moving m⟩)
    (hputs : m.puts = p :: rest) (hpc : m.pc = .writing n data k) (hk : k = data.length)
    {scratch : HashMap Job Directory} :
    Books formats { s.setTask i ⟨job, .moving (m.next rest)⟩ with scratch := scratch } := by
  have hwriter : m.writer? = some ⟨n, p.name, data, k⟩ := writer?_writing hputs hpc
  refine hb.next ht hputs (fun w hw => ?_) (hb.partly i _ ⟨_, ht, hwriter⟩).2.2.2
  obtain rfl := Option.some.inj (hwriter.symm.trans hw)
  exact hk

end Put

end Books

end State

end Argunix.Registry.BlobPool
