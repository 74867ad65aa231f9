import Mathlib.Data.List.Perm.Subperm
import Argunix.Builders.Protocol

/-!
# `argunix-builders`: the framer and a sender that does not keep to the rules

A line that is too long or cannot be read gives an error, and the next one is read as if nothing had
happened. The bound on the buffer is another matter. When a chunk would take it over, buffer and
chunk are thrown away, wherever a line happens to end in them, and the framer goes on as if the next
byte were the first of a line. So it may read **the tail of a line as a line**, or lose a line whose
beginning was in the chunk.

`recovers_iff` says when it does neither: no chunk that is thrown away ends a line that can be read,
and when a line ends whose beginning was thrown away, neither what is left of it nor the whole of it
can be read.

Lines are compared by the place in the stream where they start (`emitted`, `readable`): what a
message says does not tell where it was read.
-/

set_option autoImplicit false

namespace Argunix.Builders.Protocol

open Argunix.Lib
open Argunix.Lib.JsonText (Bytes utf8)

variable {E : Type} (serde : SerdeJson E)

/-! ## What is emitted, and what should be -/

/-- The message of a line that can be read. -/
def wellFormed (line : Bytes) : Option ControlMessage :=
  match LineFramer.readLine serde line with
  | some (.ok m) => some m
  | _ => none

/-- A line that gives an error. -/
def Malformed (line : Bytes) : Prop :=
  ∃ e, LineFramer.readLine serde line = some (.error e)

def wellFormedAt (p : ℕ × Bytes) : Option (ℕ × ControlMessage) :=
  (wellFormed serde p.2).map fun m => (p.1, m)

/-- The lines that can be read among these. -/
def readable (start : ℕ) (lines : List Bytes) : List (ℕ × ControlMessage) :=
  (numbered start lines).filterMap (wellFormedAt serde)

/-- The messages that a framer emits, each with the place where the bytes start that it was read
    from. Its buffer starts at `start`. -/
def LineFramer.emitted (framer : LineFramer) (start : ℕ) :
    List Bytes → List (ℕ × ControlMessage)
  | [] => []
  | chunk :: chunks =>
    if framer.buf.length + chunk.length > maxLineBytes * 4 then
      LineFramer.emitted ⟨[]⟩ (start + framer.buf.length + chunk.length) chunks
    else
      readable serde start (splitLines 10 (framer.buf ++ chunk)).1 ++
        LineFramer.emitted ⟨(splitLines 10 (framer.buf ++ chunk)).2⟩
          (after start (splitLines 10 (framer.buf ++ chunk)).1) chunks

def okMessage : Except (ProtocolError E) ControlMessage → Option ControlMessage
  | .ok m => some m
  | .error _ => none

/-- **The framer is sound and recovers.** -/
structure Recovers (chunks : List Bytes) : Prop where
  /-- Every message is that of one complete line, every line is reported at most once, and they are
      reported in order. -/
  sound : (LineFramer.new.emitted serde 0 chunks).Sublist
    (readable serde 0 (splitLines 10 chunks.flatten).1)
  /-- A line that can be read is not lost to one before it that cannot. -/
  recovers : ∀ before bad behind, numbered 0 (splitLines 10 chunks.flatten).1 =
      before ++ bad :: behind → Malformed serde bad.2 →
    ∀ p ∈ behind, ∀ m, wellFormed serde p.2 = some m →
      (p.1, m) ∈ LineFramer.new.emitted serde 0 chunks

/-- Nothing that can be read is thrown away or put together from what is left. `hidden` is what was
    thrown away of the line that has not ended, and the buffer goes on with it. -/
def Clean (hidden buf : Bytes) : List Bytes → Prop
  | [] => True
  | chunk :: chunks =>
    if buf.length + chunk.length > maxLineBytes * 4 then
      (∀ line ∈ (splitLines 10 (hidden ++ (buf ++ chunk))).1, wellFormed serde line = none) ∧
        Clean (splitLines 10 (hidden ++ (buf ++ chunk))).2 [] chunks
    else match splitLines 10 (buf ++ chunk) with
      | ([], left) => Clean hidden left chunks
      | (line :: _, left) =>
        (hidden ≠ [] → wellFormed serde line = none ∧ wellFormed serde (hidden ++ line) = none) ∧
          Clean [] left chunks

/-! ## Places -/

section

variable {serde}

theorem wellFormedAt_eq_some {p : ℕ × Bytes} {q : ℕ × ControlMessage} :
    wellFormedAt serde p = some q ↔ wellFormed serde p.2 = some q.2 ∧ p.1 = q.1 := by
  obtain ⟨n, m⟩ := q
  simp only [wellFormedAt, Option.map_eq_some_iff, Prod.mk.injEq]
  refine ⟨?_, fun h => ⟨m, h.1, h.2, rfl⟩⟩
  intro ⟨m', hm, hn, heq⟩
  exact ⟨heq ▸ hm, hn⟩

theorem mem_readable {start : ℕ} {lines : List Bytes} {q : ℕ × ControlMessage} :
    q ∈ readable serde start lines ↔
      ∃ line, (q.1, line) ∈ numbered start lines ∧ wellFormed serde line = some q.2 := by
  simp only [readable, List.mem_filterMap, wellFormedAt_eq_some]
  constructor
  · intro ⟨p, hp, hm, hq⟩
    exact ⟨p.2, hq ▸ hp, hm⟩
  · intro ⟨line, hp, hm⟩
    exact ⟨(q.1, line), hp, hm, rfl⟩

theorem readable_cons (start : ℕ) (line : Bytes) (lines : List Bytes) :
    readable serde start (line :: lines) =
      ((wellFormed serde line).map fun m => (start, m)).toList ++
        readable serde (start + line.length + 1) lines := by
  unfold readable
  rw [numbered, List.filterMap_cons]
  cases hw : wellFormed serde line with
  | none => simp [wellFormedAt, hw]
  | some m => simp [wellFormedAt, hw]

theorem readable_append (start : ℕ) (ls ls' : List Bytes) :
    readable serde start (ls ++ ls') =
      readable serde start ls ++ readable serde (after start ls) ls' := by
  unfold readable
  rw [numbered_append, List.filterMap_append]

theorem bounds_of_mem_readable {start : ℕ} {lines : List Bytes} {q : ℕ × ControlMessage}
    (h : q ∈ readable serde start lines) : start ≤ q.1 ∧ q.1 < after start lines := by
  obtain ⟨line, hp, -⟩ := mem_readable.mp h
  have := bounds_of_mem_numbered hp
  exact ⟨this.1, Nat.lt_of_le_of_lt (Nat.le_add_right _ _) this.2⟩

theorem readable_eq_nil (start : ℕ) {lines : List Bytes} :
    readable serde start lines = [] ↔ ∀ line ∈ lines, wellFormed serde line = none := by
  induction lines generalizing start with
  | nil => exact ⟨fun _ line hl => absurd hl List.not_mem_nil, fun _ => rfl⟩
  | cons l ls ih =>
    rw [readable_cons, List.append_eq_nil_iff, ih, List.forall_mem_cons]
    refine and_congr_left' ?_
    cases wellFormed serde l <;> simp

theorem nodup_readable (start : ℕ) (lines : List Bytes) : (readable serde start lines).Nodup := by
  induction lines generalizing start with
  | nil => exact List.nodup_nil
  | cons l ls ih =>
    rw [readable_cons]
    cases wellFormed serde l with
    | none => exact ih _
    | some m =>
      refine List.nodup_cons.mpr ⟨fun hm => ?_, ih _⟩
      have hplace : start + l.length + 1 ≤ start := (bounds_of_mem_readable hm).1
      omega

theorem map_snd_readable (start : ℕ) (lines : List Bytes) :
    (readable serde start lines).map Prod.snd =
      (lines.filterMap (LineFramer.readLine serde)).filterMap okMessage := by
  induction lines generalizing start with
  | nil => rfl
  | cons l ls ih =>
    rw [readable_cons, List.map_append, ih, List.filterMap_cons, wellFormed]
    cases LineFramer.readLine serde l with
    | none => rfl
    | some r =>
      cases r with
      | ok m => rfl
      | error e => rfl

variable (serde) in
theorem LineFramer.emitted_cons_of_gt {buf chunk : Bytes}
    (h : buf.length + chunk.length > maxLineBytes * 4) (start : ℕ) (chunks : List Bytes) :
    LineFramer.emitted serde ⟨buf⟩ start (chunk :: chunks) =
      LineFramer.emitted serde ⟨[]⟩ (start + buf.length + chunk.length) chunks := by
  rw [emitted, if_pos h]

variable (serde) in
theorem LineFramer.emitted_cons_of_le {buf chunk : Bytes}
    (h : ¬ buf.length + chunk.length > maxLineBytes * 4) (start : ℕ) (chunks : List Bytes) :
    LineFramer.emitted serde ⟨buf⟩ start (chunk :: chunks) =
      readable serde start (splitLines 10 (buf ++ chunk)).1 ++
        LineFramer.emitted serde ⟨(splitLines 10 (buf ++ chunk)).2⟩
          (after start (splitLines 10 (buf ++ chunk)).1) chunks := by
  rw [emitted, if_neg h]

/-- Nothing is read from before the buffer. -/
theorem LineFramer.le_of_mem_emitted {buf : Bytes} {start : ℕ} {chunks : List Bytes}
    {q : ℕ × ControlMessage} (h : q ∈ LineFramer.emitted serde ⟨buf⟩ start chunks) :
    start ≤ q.1 := by
  induction chunks generalizing buf start with
  | nil => exact absurd h List.not_mem_nil
  | cons c cs ih =>
    by_cases hlen : buf.length + c.length > maxLineBytes * 4
    · rw [emitted_cons_of_gt serde hlen] at h
      have := ih h
      omega
    · rw [emitted_cons_of_le serde hlen] at h
      rcases List.mem_append.mp h with h | h
      · exact (bounds_of_mem_readable h).1
      · exact (le_after start _).trans (ih h)

/-- **The messages of `emitted` are those that the framer returns.** -/
theorem LineFramer.map_snd_emitted (framer : LineFramer) (start : ℕ) (chunks : List Bytes) :
    (framer.emitted serde start chunks).map Prod.snd =
      (framer.feed serde chunks).1.filterMap okMessage := by
  induction chunks generalizing framer start with
  | nil => rfl
  | cons c cs ih =>
    rw [feed_cons, List.filterMap_append]
    by_cases hlen : framer.buf.length + c.length > maxLineBytes * 4
    · rw [emitted_cons_of_gt serde hlen, extend_of_gt serde hlen, ih]
      rfl
    · rw [emitted_cons_of_le serde hlen, extend_of_le serde (Nat.not_lt.mp hlen), List.map_append,
        map_snd_readable, ih]

/-! ## The framer against the stream -/

/-- Two lists that go on with the same one, where the second holds nothing from before `n`. -/
theorem head_eq_nil {o : Option (ℕ × ControlMessage)} {xs ys : List (ℕ × ControlMessage)} {n : ℕ}
    (ho : ∀ q ∈ o, q.1 < n) (hys : ∀ q ∈ ys, n ≤ q.1) (h : o.toList ++ xs = ys) : o = none := by
  cases o with
  | none => rfl
  | some q =>
    have hlow := ho q rfl
    have hhigh := hys q (h ▸ List.mem_cons_self)
    omega

/-- A line ends of which `hidden` was thrown away. -/
theorem ended_iff {hidden line : Bytes} {start : ℕ} {es ws : List (ℕ × ControlMessage)}
    (hes : ∀ q ∈ es, start + hidden.length + line.length + 1 ≤ q.1)
    (hws : ∀ q ∈ ws, start + hidden.length + line.length + 1 ≤ q.1) :
    ((wellFormed serde line).map fun m => (start + hidden.length, m)).toList ++ es =
        ((wellFormed serde (hidden ++ line)).map fun m => (start, m)).toList ++ ws ↔
      (hidden ≠ [] → wellFormed serde line = none ∧ wellFormed serde (hidden ++ line) = none) ∧
        es = ws := by
  cases hidden with
  | nil => simp
  | cons x xs =>
    constructor
    · intro h
      -- the two heads start at different places, and what comes after starts behind them
      cases hl : wellFormed serde line with
      | none =>
        cases hw : wellFormed serde ((x :: xs) ++ line) with
        | none =>
          rw [hl, hw] at h
          exact ⟨fun _ => ⟨rfl, rfl⟩, h⟩
        | some m =>
          rw [hl, hw] at h
          have := head_eq_nil (o := some (start, m)) (n := start + 1) (by simp)
            (fun q hq => Nat.le_trans (by omega) (hes q hq)) h.symm
          exact absurd this (by simp)
      | some m =>
        cases hw : wellFormed serde ((x :: xs) ++ line) with
        | none =>
          rw [hl, hw] at h
          have := head_eq_nil (o := some (start + (x :: xs).length, m))
            (n := start + (x :: xs).length + 1) (by simp)
            (fun q hq => Nat.le_trans (by omega) (hws q hq)) h
          exact absurd this (by simp)
        | some m' =>
          rw [hl, hw] at h
          have := congrArg Prod.fst (List.cons.inj h).1
          simp at this
    · intro ⟨hnone, heq⟩
      obtain ⟨hl, hw⟩ := hnone (by simp)
      rw [hl, hw, heq]
      rfl

/-- **The framer emits what it should if and only if the stream is clean.** `start` is where the
    line starts of which `hidden` was thrown away. -/
theorem emitted_eq_iff {hidden buf : Bytes} {start : ℕ} {chunks : List Bytes} (hh : 10 ∉ hidden)
    (hb : 10 ∉ buf) :
    LineFramer.emitted serde ⟨buf⟩ (start + hidden.length) chunks =
        readable serde start (splitLines 10 (hidden ++ (buf ++ chunks.flatten))).1 ↔
      Clean serde hidden buf chunks := by
  induction chunks generalizing hidden buf start with
  | nil =>
    have hnone : 10 ∉ hidden ++ buf := fun hm => (List.mem_append.mp hm).elim hh hb
    rw [List.flatten_nil, List.append_nil, splitLines_of_not_mem hnone]
    exact iff_of_true rfl trivial
  | cons c cs ih =>
    have hstream : hidden ++ (buf ++ (c :: cs).flatten) = (hidden ++ (buf ++ c)) ++ cs.flatten := by
      simp
    rw [hstream, splitLines_append, readable_append]
    by_cases hlen : buf.length + c.length > maxLineBytes * 4
    · -- nothing is emitted, and the framer starts afresh inside of the line that has not ended
      have hplace : start + hidden.length + buf.length + c.length =
          after start (splitLines 10 (hidden ++ (buf ++ c))).1 +
            (splitLines 10 (hidden ++ (buf ++ c))).2.length := by
        rw [after_splitLines, List.length_append, List.length_append]
        omega
      rw [LineFramer.emitted_cons_of_gt serde hlen, Clean, if_pos hlen, hplace,
        ← ih (not_mem_rest _) List.not_mem_nil, List.nil_append, ← readable_eq_nil start]
      constructor
      · intro h
        have hnil : readable serde start (splitLines 10 (hidden ++ (buf ++ c))).1 = [] := by
          refine List.eq_nil_iff_forall_not_mem.mpr fun q hq => ?_
          have hlow := (bounds_of_mem_readable hq).2
          have hhigh := LineFramer.le_of_mem_emitted (h ▸ List.mem_append_left _ hq)
          omega
        rw [hnil] at h
        exact ⟨hnil, h⟩
      · intro ⟨hnil, h⟩
        rw [hnil, h]
        rfl
    · rw [LineFramer.emitted_cons_of_le serde hlen, Clean, if_neg hlen]
      cases hsplit : splitLines 10 (buf ++ c) with
      | mk lines left =>
        have hleft : 10 ∉ left := by
          have hrest : 10 ∉ (splitLines 10 (buf ++ c)).2 := not_mem_rest (buf ++ c)
          rwa [hsplit] at hrest
        cases lines with
        | nil =>
          have hnone := splitLines_of_no_lines (congrArg Prod.fst hsplit)
          have hall : 10 ∉ hidden ++ (buf ++ c) := fun hm => (List.mem_append.mp hm).elim hh hnone
          rw [splitLines_of_not_mem hnone, Prod.mk.injEq] at hsplit
          obtain rfl := hsplit.2
          rw [splitLines_of_not_mem hall, List.append_assoc]
          exact ih hh hleft
        | cons line lines =>
          have hwhole := splitLines_prepend hh (congrArg Prod.fst hsplit)
          rw [hsplit] at hwhole
          have hplace : start + (hidden ++ line).length + 1 =
              start + hidden.length + line.length + 1 := by
            rw [List.length_append]
            omega
          rw [hwhole]
          simp only [readable_cons, after_cons, hplace, List.append_assoc]
          rw [ended_iff, List.append_cancel_left_eq, ← ih List.not_mem_nil hleft]
          · rfl
          · intro q hq
            rcases List.mem_append.mp hq with hq | hq
            · exact (bounds_of_mem_readable hq).1
            · exact (le_after _ _).trans (LineFramer.le_of_mem_emitted hq)
          · intro q hq
            rcases List.mem_append.mp hq with hq | hq
            · exact (bounds_of_mem_readable hq).1
            · exact (le_after _ _).trans (bounds_of_mem_readable hq).1

/-! ## Before the first line that is thrown away -/

theorem malformed_of_long {line : Bytes} (h : maxLineBytes < line.length) :
    Malformed serde line := by
  have hne : line.isEmpty = false := by
    cases line with
    | nil => exact absurd h (Nat.not_lt_zero _)
    | cons x xs => rfl
  refine ⟨.lineTooLong line.length maxLineBytes, ?_⟩
  rw [LineFramer.readLine, if_neg (by simp [hne]), if_pos h]

theorem Malformed.wellFormed {line : Bytes} (h : Malformed serde line) :
    wellFormed serde line = none := by
  obtain ⟨e, he⟩ := h
  rw [Protocol.wellFormed, he]

/-- A line that can be read is emitted if no line before it is malformed: the buffer runs over only
    while a line comes in that is too long. -/
theorem mem_emitted_of_not_malformed {buf : Bytes} {start : ℕ} {chunks : List Bytes}
    {before behind : List (ℕ × Bytes)} {p : ℕ × Bytes} {m : ControlMessage} (hb : 10 ∉ buf)
    (hchunk : ∀ c ∈ chunks, c.length ≤ 65535)
    (hlines : numbered start (splitLines 10 (buf ++ chunks.flatten)).1 = before ++ p :: behind)
    (hbefore : ∀ q ∈ before, ¬ Malformed serde q.2) (hm : wellFormed serde p.2 = some m) :
    (p.1, m) ∈ LineFramer.emitted serde ⟨buf⟩ start chunks := by
  induction chunks generalizing buf start before with
  | nil =>
    rw [List.flatten_nil, List.append_nil, splitLines_of_not_mem hb] at hlines
    exact absurd hlines.symm (List.append_ne_nil_of_right_ne_nil _ (List.cons_ne_nil _ _))
  | cons c cs ih =>
    have hc := hchunk c List.mem_cons_self
    by_cases hlen : buf.length + c.length > maxLineBytes * 4
    · cases hl : (splitLines 10 (buf ++ (c :: cs).flatten)).1 with
      | nil =>
        rw [hl] at hlines
        exact absurd hlines.symm (List.append_ne_nil_of_right_ne_nil _ (List.cons_ne_nil _ _))
      | cons line lines =>
        have hlong : Malformed serde line := by
          refine malformed_of_long (Nat.lt_of_lt_of_le ?_ (length_le_of_first_line hb hl))
          unfold maxLineBytes at hlen ⊢
          omega
        rw [hl, numbered] at hlines
        cases before with
        | nil =>
          obtain rfl := (List.cons.inj hlines).1
          exact absurd (hm.symm.trans hlong.wellFormed) (by simp)
        | cons q before =>
          obtain rfl := (List.cons.inj hlines).1
          exact absurd hlong (hbefore _ List.mem_cons_self)
    · have hcs : ∀ c ∈ cs, c.length ≤ 65535 := fun c' h => hchunk c' (List.mem_cons_of_mem c h)
      rw [List.flatten_cons, ← List.append_assoc, splitLines_append, numbered_append] at hlines
      rw [LineFramer.emitted_cons_of_le serde hlen]
      rcases List.append_eq_append_iff.mp hlines with ⟨w, rfl, hw⟩ | ⟨w, hw, hlater⟩
      · refine List.mem_append_right _ (ih (not_mem_rest _) hcs hw fun q hq => ?_)
        exact hbefore q (List.mem_append_right _ hq)
      · cases w with
        | nil =>
          have hnone : ∀ q ∈ ([] : List (ℕ × Bytes)), ¬ Malformed serde q.2 :=
            fun q hq => absurd hq List.not_mem_nil
          exact List.mem_append_right _ (ih (not_mem_rest _) hcs
            (show _ = [] ++ p :: behind from hlater.symm) hnone)
        | cons q w =>
          obtain rfl := (List.cons.inj hlater).1
          refine List.mem_append_left _ (mem_readable.mpr ⟨p.2, ?_, hm⟩)
          exact hw ▸ List.mem_append_right _ List.mem_cons_self

variable (serde) in
/-- Of the lines before a place, either one is malformed or none is. -/
theorem exists_malformed_or (before : List (ℕ × Bytes)) :
    (∃ bs bad bs', before = bs ++ bad :: bs' ∧ Malformed serde bad.2) ∨
      ∀ q ∈ before, ¬ Malformed serde q.2 := by
  by_cases h : ∃ q ∈ before, Malformed serde q.2
  · obtain ⟨q, hq, hbad⟩ := h
    obtain ⟨bs, bs', rfl⟩ := List.append_of_mem hq
    exact .inl ⟨bs, q, bs', rfl, hbad⟩
  · exact .inr fun q hq hbad => h ⟨q, hq, hbad⟩

/-- To be sound and to recover is to emit the lines that can be read, and no others. -/
theorem recovers_iff_eq {chunks : List Bytes} (hchunk : ∀ c ∈ chunks, c.length ≤ 65535) :
    Recovers serde chunks ↔ LineFramer.new.emitted serde 0 chunks =
      readable serde 0 (splitLines 10 chunks.flatten).1 := by
  constructor
  · intro h
    refine h.sound.eq_of_length_le ?_
    refine (List.subperm_of_subset (nodup_readable 0 _) fun q hq => ?_).length_le
    obtain ⟨line, hline, hm⟩ := mem_readable.mp hq
    obtain ⟨before, behind, hsplit⟩ := List.append_of_mem hline
    rcases exists_malformed_or serde before with ⟨bs, bad, bs', rfl, hbad⟩ | hgood
    · refine h.recovers bs bad (bs' ++ (q.1, line) :: behind) ?_ hbad (q.1, line) ?_ q.2 hm
      · rw [hsplit, List.append_assoc, List.cons_append]
      · exact List.mem_append_right _ List.mem_cons_self
    · exact mem_emitted_of_not_malformed List.not_mem_nil hchunk hsplit hgood hm
  · intro h
    refine ⟨by rw [h], fun before bad behind hsplit _ p hp m hm => ?_⟩
    rw [h]
    refine mem_readable.mpr ⟨p.2, ?_, hm⟩
    rw [hsplit]
    exact List.mem_append_right _ (List.mem_cons_of_mem _ hp)

theorem recovers_iff_clean {chunks : List Bytes} (hchunk : ∀ c ∈ chunks, c.length ≤ 65535) :
    Recovers serde chunks ↔ Clean serde [] [] chunks := by
  rw [recovers_iff_eq hchunk]
  exact emitted_eq_iff List.not_mem_nil List.not_mem_nil

/-- **The framer is sound and recovers if and only if nothing that can be read is thrown away or put
    together from what is left.** The places stand for what the framer returns. -/
theorem recovers_iff {chunks : List Bytes} (hchunk : ∀ c ∈ chunks, c.length ≤ 65535) :
    (LineFramer.new.emitted serde 0 chunks).map Prod.snd =
        (LineFramer.new.feed serde chunks).1.filterMap okMessage ∧
      (Recovers serde chunks ↔ Clean serde [] [] chunks) :=
  ⟨LineFramer.map_snd_emitted .., recovers_iff_clean hchunk⟩

/-- A line that cannot be read, and one that can. -/
theorem recovers_iff_garbage :
    Recovers twoTexts [utf8 "not json\n" ++ twoTexts.encodeLine (.abort (-7))] := by
  refine (recovers_iff (by decide)).2.mpr ?_
  have hfits : ¬ ([] : Bytes).length +
      (utf8 "not json\n" ++ twoTexts.encodeLine (.abort (-7))).length > maxLineBytes * 4 := by
    decide
  rw [Clean, if_neg hfits]
  split
  · trivial
  · exact ⟨fun hne => absurd rfl hne, trivial⟩

/-! ## The tail of a line -/

/-- Four chunks of `n` times `x`, five more, and a message. -/
def overlong (n : ℕ) : List Bytes :=
  List.replicate 4 (List.replicate n 120) ++
    [List.replicate 5 120, twoTexts.encodeLine (.abort (-7))]

/-- A chunk without a line break that still fits. -/
theorem clean_cons_of_not_mem {hidden buf chunk : Bytes} {chunks : List Bytes}
    (hnone : 10 ∉ buf ++ chunk) (hlen : buf.length + chunk.length ≤ maxLineBytes * 4) :
    Clean serde hidden buf (chunk :: chunks) ↔ Clean serde hidden (buf ++ chunk) chunks := by
  rw [Clean, if_neg (Nat.not_lt.mpr hlen), splitLines_of_not_mem hnone]

theorem newline_not_mem_replicate (n : ℕ) : 10 ∉ List.replicate n (120 : UInt8) := by
  intro h
  exact absurd (List.eq_of_mem_replicate h) (by decide)

/-- The chunks of the line collect in the buffer. -/
theorem clean_replicate_iff (n k len : ℕ) (chunks : List Bytes)
    (hlen : n + k * len ≤ maxLineBytes * 4) :
    Clean serde [] (List.replicate n 120) (List.replicate k (List.replicate len 120) ++ chunks) ↔
      Clean serde [] (List.replicate (n + k * len) 120) chunks := by
  induction k generalizing n with
  | zero => rw [Nat.zero_mul]; rfl
  | succ k ih =>
    rw [Nat.succ_mul] at hlen
    have hsum : n + (k + 1) * len = n + len + k * len := by
      rw [Nat.succ_mul]
      omega
    rw [List.replicate_succ, List.cons_append, clean_cons_of_not_mem,
      List.replicate_append_replicate, ih (n + len) (by omega), hsum]
    · rw [List.replicate_append_replicate]
      exact newline_not_mem_replicate _
    · rw [List.length_replicate, List.length_replicate]
      omega

/-- The buffer runs over and the next chunk is a message: the framer takes it for a line. -/
theorem not_clean_tail {buf chunk : Bytes} {m : ControlMessage} (hone : serde.OneLine)
    (hnone : 10 ∉ buf ++ chunk) (hover : buf.length + chunk.length > maxLineBytes * 4)
    (hfits : (serde.encodeLine m).length ≤ maxLineBytes * 4)
    (hm : wellFormed serde (serde.toVec m) = some m) :
    ¬ Clean serde [] buf [chunk, serde.encodeLine m] := by
  intro h
  rw [Clean, if_pos hover, List.nil_append, splitLines_of_not_mem hnone] at h
  have hne : buf ++ chunk ≠ [] := by
    intro hnil
    rw [← List.length_append, hnil] at hover
    exact absurd hover (Nat.not_lt_zero _)
  have hline : splitLines 10 ([] ++ serde.encodeLine m) = ([serde.toVec m], []) :=
    splitLines_line (serde.newline_not_mem_toVec hone m) []
  have hlen : ¬ ([] : Bytes).length + (serde.encodeLine m).length > maxLineBytes * 4 := by
    rw [List.length_nil, Nat.zero_add]
    exact Nat.not_lt.mpr hfits
  have htail := h.2
  rw [Clean, if_neg hlen, hline] at htail
  exact absurd (hm.symm.trans (htail.1 hne).1) (by simp)

theorem length_le_of_mem_overlong {n : ℕ} {c : Bytes} (hn : n = 65535) (hc : c ∈ overlong n) :
    c.length ≤ 65535 := by
  rcases List.mem_append.mp hc with hc | hc
  · rw [List.eq_of_mem_replicate hc, List.length_replicate, hn]
  · simp only [List.mem_cons, List.not_mem_nil, or_false] at hc
    rcases hc with rfl | rfl
    · rw [List.length_replicate]
      decide
    · decide

theorem not_clean_overlong {n : ℕ} (hn : n = 65535) : ¬ Clean twoTexts [] [] (overlong n) := by
  intro h
  have hfull := (clean_replicate_iff 0 4 n _ (by unfold maxLineBytes; omega)).mp h
  have hdigits : 10 ∉ utf8 "0.5" := by decide
  refine not_clean_tail (fun _ => hdigits) ?_ ?_ (by decide) (by decide) hfull
  · rw [List.replicate_append_replicate]
    exact newline_not_mem_replicate _
  · rw [List.length_replicate, List.length_replicate]
    unfold maxLineBytes
    omega

theorem not_recovers_of_length {n : ℕ} (hn : n = 65535) :
    (∀ c ∈ overlong n, c.length ≤ 65535) ∧ ¬ Recovers twoTexts (overlong n) := by
  have hchunk : ∀ c ∈ overlong n, c.length ≤ 65535 := fun c => length_le_of_mem_overlong hn
  exact ⟨hchunk, fun h => not_clean_overlong hn ((recovers_iff_clean hchunk).mp h)⟩

/-- **The tail of a line is read as a message.** -/
theorem not_recovers_overlong : (∀ c ∈ overlong 65535, c.length ≤ 65535) ∧
    ¬ Recovers twoTexts (overlong 65535) :=
  not_recovers_of_length rfl

end

end Argunix.Builders.Protocol
