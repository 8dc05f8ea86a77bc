import MicroJava.Proofs.Course
import MicroJava.Proofs.SourceFile

/-!
# Which reports are kept

A report is kept exactly if it is the first one, or enough tokens were taken since the last report
and since the last place at which reading went on (`kept_iff`), unless the distance, which starts
from what is enough and is counted in 32 bits, has started again from zero (`kept_eq`). So where the
tokens are too few for that, a compilation without diagnostics is one without mistakes
(`diagnostics_eq_nil_iff`).
-/

namespace MicroJava

namespace Journal

/-- The distance behind events, newest first. -/
def distanceOf (least : UInt32) : List Event → UInt32
  | [] => least
  | .took _ :: es => distanceOf least es + 1
  | .reported _ _ :: _ | .resumed :: _ => 0

/-- How many tokens were taken since the last report or resumption. -/
def since : List Event → Nat
  | .took _ :: es => since es + 1
  | _ => 0

variable {least : UInt32} {es : List Event}

theorem since_le (es : List Event) : since es ≤ (es.filterMap Event.taken?).length := by
  fun_induction since es with
  | case1 t es ih => simpa [Event.taken?] using ih
  | case2 es h => exact Nat.zero_le _

theorem ofNat_succ (n : Nat) : UInt32.ofNat (n + 1) = UInt32.ofNat n + 1 := by
  rw [UInt32.ofNat_add]
  rfl

/-- Up to the first report, the distance is counted from what is enough. -/
theorem distanceOf_of_taken (h : ∀ e ∈ es, e.taken?.isSome) :
    distanceOf least es = UInt32.ofNat (least.toNat + since es) := by
  induction es with
  | nil => simp [distanceOf, since]
  | cons e es ih =>
    have he : e.taken?.isSome := h e List.mem_cons_self
    cases e with
    | took t =>
      rw [distanceOf, since, ih fun e he => h e (List.mem_cons_of_mem _ he), ← Nat.add_assoc,
        ofNat_succ]
    | reported d kept => simp [Event.taken?] at he
    | resumed => simp [Event.taken?] at he

/-- Later, it is counted from zero. -/
theorem distanceOf_of_not_taken (h : ∃ e ∈ es, ¬e.taken?.isSome) :
    distanceOf least es = UInt32.ofNat (since es) := by
  induction es with
  | nil => simp at h
  | cons e es ih =>
    cases e with
    | took t =>
      have hes : ∃ e ∈ es, ¬e.taken?.isSome := by simpa [Event.taken?] using h
      rw [distanceOf, since, ih hes, ofNat_succ]
    | reported d kept => rfl
    | resumed => rfl

end Journal

namespace Session

/-- What the journal tells of its reports, with `n` tokens to take. -/
structure Counted (least : UInt32) (n : Nat) (s : Session) : Prop where
  distance : s.journal.distance = Journal.distanceOf least s.journal.events
  kept : ∀ newer d kept older, s.journal.events = newer ++ .reported d kept :: older →
    kept = decide (least ≤ Journal.distanceOf least older)
  /-- A place is found only behind a report. -/
  resumed : ∀ newer older, s.journal.events = newer ++ .resumed :: older →
    older.countP Event.isReport ≠ 0
  first : ∀ newer d kept older, s.journal.events = newer ++ .reported d kept :: older →
    older.countP Event.isReport = 0 → (older.filterMap Event.taken?).length ≤ n

variable {least : UInt32} {n : Nat} {s : Session}

theorem Counted.advance (h : s.Counted least n) : s.advance.Counted least n := by
  have hevents : s.advance.journal.events = .took s.stream.next.1 :: s.journal.events := rfl
  have hsplit : ∀ {e : Event} {newer older : List Event}, e.taken? = none →
      s.advance.journal.events = newer ++ e :: older →
        ∃ newer', s.journal.events = newer' ++ e :: older := by
    intro e newer older he heq
    rw [hevents] at heq
    rcases newer with _ | ⟨e', newer⟩
    · obtain ⟨rfl, -⟩ := List.cons.inj heq
      simp [Event.taken?] at he
    · exact ⟨newer, (List.cons.inj heq).2⟩
  refine ⟨?_, fun newer d kept older heq => ?_, fun newer older heq => ?_,
    fun newer d kept older heq => ?_⟩
  · rw [hevents, Journal.distanceOf, ← h.distance]
    rfl
  · obtain ⟨newer', heq'⟩ := hsplit rfl heq
    exact h.kept newer' d kept older heq'
  · obtain ⟨newer', heq'⟩ := hsplit rfl heq
    exact h.resumed newer' older heq'
  · obtain ⟨newer', heq'⟩ := hsplit rfl heq
    exact h.first newer' d kept older heq'

theorem Counted.report (h : s.Counted least n) (p : Problem) (details : List String)
    (hfirst : s.mistakes = 0 → (s.journal.events.filterMap Event.taken?).length ≤ n) :
    (s.report least p details).Counted least n := by
  refine ⟨rfl, fun newer d kept older heq => ?_, fun newer older heq => ?_,
    fun newer d kept older heq hnone => ?_⟩ <;> rcases newer with _ | ⟨e, newer⟩
  · obtain ⟨hhead, rfl⟩ := List.cons.inj heq
    obtain ⟨-, rfl⟩ := Event.reported.inj hhead
    rw [← h.distance]
  · exact h.kept newer d kept older (List.cons.inj heq).2
  · exact absurd (List.cons.inj heq).1 (by simp)
  · exact h.resumed newer older (List.cons.inj heq).2
  · obtain ⟨-, rfl⟩ := List.cons.inj heq
    exact hfirst hnone
  · exact h.first newer d kept older (List.cons.inj heq).2 hnone

theorem Counted.resume (h : s.Counted least n) (hm : 0 < s.mistakes) :
    s.resume.Counted least n := by
  refine ⟨rfl, fun newer d kept older heq => ?_, fun newer older heq => ?_,
    fun newer d kept older heq hnone => ?_⟩ <;> rcases newer with _ | ⟨e, newer⟩
  · exact absurd (List.cons.inj heq).1 (by simp)
  · exact h.kept newer d kept older (List.cons.inj heq).2
  · obtain ⟨-, rfl⟩ := List.cons.inj heq
    exact Nat.pos_iff_ne_zero.1 hm
  · exact h.resumed newer older (List.cons.inj heq).2
  · exact absurd (List.cons.inj heq).1 (by simp)
  · exact h.first newer d kept older (List.cons.inj heq).2 hnone

end Session

namespace Course

variable {c : Setting} {s s' : Session} {e : Bool}

/-- The end of the file is taken as a token only behind a report. -/
theorem eq_false (h : Course c s e s') (hm : s'.mistakes = 0) : e = false := by
  induction h with
  | refl => rfl
  | beside _ hb ih =>
    rw [Session.mistakes, hb.journal] at hm
    exact ih hm
  | advance _ _ ih => exact ih (by simpa using hm)
  | report p details _ ih => simp at hm
  | skip p _ _ => simp at hm
  | resume _ _ ih => exact ih (by simpa using hm)

theorem taken_le (h : Course c s e s') (hs : s.Ended) :
    (s'.journal.events.filterMap Event.taken?).length ≤ s.scanned.length + e.toNat := by
  have hlength := congrArg List.length (h.scanned hs).1
  rw [Session.scanned, List.length_append, List.length_reverse, List.length_append] at hlength
  cases e <;> simp at hlength ⊢ <;> omega

theorem counted (h : Course c s e s') (hs : s.Ended)
    (hcounted : s.Counted c.options.reportDistance s.scanned.length) :
    s'.Counted c.options.reportDistance s.scanned.length := by
  have hfirst : ∀ {s₁ : Session} {e : Bool}, Course c s e s₁ → s₁.mistakes = 0 →
      (s₁.journal.events.filterMap Event.taken?).length ≤ s.scanned.length := by
    intro s₁ e h hm
    have htaken := h.taken_le hs
    rwa [h.eq_false hm] at htaken
  induction h with
  | refl => exact hcounted
  | beside _ hb ih => exact ⟨hb.journal ▸ ih.distance, hb.journal ▸ ih.kept, hb.journal ▸ ih.resumed,
      hb.journal ▸ ih.first⟩
  | advance _ _ ih => exact ih.advance
  | report p details h ih => exact ih.report p details (hfirst h)
  | skip p h ih => exact (ih.report p [] (hfirst h)).advance
  | resume _ hm ih => exact ih.resume hm

end Course

namespace Production

variable {source : String} {options : Options}

/-- The journal that a compilation leaves, also where it stops at a fault. -/
def journal (source : String) (options : Options) : Journal :=
  (sourceFile.runOn options (Token.scan source)).2.journal

theorem start_counted (source : String) (options : Options) :
    (Session.start (Token.scan source) options).advance.Counted options.reportDistance
      (Token.scan source).ahead.length :=
  Session.Counted.advance ⟨rfl, fun _ _ _ _ h => by simp [Session.start] at h,
    fun _ _ h => by simp [Session.start] at h, fun _ _ _ _ h => by simp [Session.start] at h⟩

/-- Before the first token, all of them are ahead. -/
theorem start_scanned (source : String) (options : Options) :
    (Session.start (Token.scan source) options).advance.scanned = (Token.scan source).ahead := by
  rw [(Session.Ended.start source options).scanned_advance]
  simp [Session.start, Session.scanned]

/-- The journal of a compilation tells of its reports, and of no more tokens in front of one than
there are, and the end of the file. -/
theorem journal_counted (source : String) (options : Options) :
    ∃ s e, Course (.ofStream options (Token.scan source))
        (Session.start (Token.scan source) options).advance e s ∧
      s.Counted options.reportDistance (Token.scan source).ahead.length ∧
      ∀ newer d kept older, (journal source options).events = newer ++ .reported d kept :: older →
        ∃ newer', s.journal.events = newer' ++ .reported d kept :: older := by
  obtain ⟨e, s, hcourse, hend⟩ :=
    course_sourceFile (c := .ofStream options (Token.scan source)) (Session.Ended.start source options)
  have hcounted := hcourse.counted (Session.Ended.start source options).advance
    (start_scanned source options ▸ start_counted source options)
  rw [start_scanned] at hcounted
  refine ⟨s, e, hcourse, hcounted, fun newer d kept older heq => ?_⟩
  change (sourceFile.outcome _ _).2.journal.events = _ at heq
  rcases hend with hsame | ⟨-, hadvance⟩
  · exact ⟨newer, hsame ▸ heq⟩
  · rw [hadvance] at heq
    rcases newer with _ | ⟨e', newer⟩
    · exact absurd (List.cons.inj heq).1 (by simp)
    · exact ⟨newer, (List.cons.inj heq).2⟩

/-- Whether a report is kept is told by the tokens taken since the last report or resumption, as far
as they can be counted. -/
theorem kept_eq {newer older : List Event} {d : Diagnostic} {kept : Bool}
    (h : (journal source options).events = newer ++ .reported d kept :: older) :
    kept = decide (options.reportDistance.toNat ≤
      ((if older.countP Event.isReport = 0 then options.reportDistance.toNat else 0) +
        Journal.since older) % 2 ^ 32) := by
  obtain ⟨s, e, -, hcounted, hsplit⟩ := journal_counted source options
  obtain ⟨newer', heq⟩ := hsplit newer d kept older h
  rw [hcounted.kept newer' d kept older heq]
  split
  · next hnone =>
    rw [Journal.distanceOf_of_taken fun e he => ?_]
    · simp [UInt32.le_iff_toNat_le]
    · cases e with
      | took t => rfl
      | reported d kept => exact absurd rfl (List.countP_eq_zero.1 hnone _ he)
      | resumed =>
        obtain ⟨newer'', older', rfl⟩ := List.append_of_mem he
        have hreport := hcounted.resumed (newer' ++ .reported d kept :: newer'') older' (by simp [heq])
        rw [List.countP_append, List.countP_cons] at hnone
        omega
  · next hsome =>
    rw [Journal.distanceOf_of_not_taken]
    · simp [UInt32.le_iff_toNat_le]
    · obtain ⟨e, he, hreport⟩ := List.countP_pos_iff.1 (Nat.pos_of_ne_zero hsome)
      refine ⟨e, he, ?_⟩
      cases e <;> simp_all [Event.isReport, Event.taken?]

/-- With too few tokens for the distance to start again from zero, a report is kept exactly if it is
the first, or enough tokens were taken since the last report or resumption. -/
theorem kept_iff (hfew : options.reportDistance = 0 ∨
      options.reportDistance.toNat + (Token.scan source).ahead.length < 2 ^ 32)
    {newer older : List Event} {d : Diagnostic} {kept : Bool}
    (h : (journal source options).events = newer ++ .reported d kept :: older) :
    kept = true ↔
      older.countP Event.isReport = 0 ∨ options.reportDistance.toNat ≤ Journal.since older := by
  rw [kept_eq h, decide_eq_true_iff]
  obtain ⟨s, e, hcourse, hcounted, hsplit⟩ := journal_counted source options
  obtain ⟨newer', heq⟩ := hsplit newer d kept older h
  have hsince := Journal.since_le older
  have htaken := hcourse.taken_le (Session.Ended.start source options).advance
  rw [start_scanned, heq, List.filterMap_append, List.length_append] at htaken
  simp only [Event.taken?, List.filterMap_cons] at htaken
  have he := Bool.toNat_le e
  have hfirst := hcounted.first newer' d kept older heq
  rcases hfew with hzero | hfew
  · simp [hzero]
  · split
    · next hnone =>
      have hfirst := hfirst hnone
      rw [Nat.mod_eq_of_lt (by omega)]
      simp [hnone]
    · next hsome =>
      rcases Nat.eq_zero_or_pos options.reportDistance.toNat with hzero | hpos
      · simp [hzero]
      · rw [Nat.mod_eq_of_lt (by omega)]
        simp [hsome]

/-- Where no mistake was made, every token was taken. -/
theorem took_of_runs {c : Setting} {s : Session} {u : Unit}
    (h : Runs c sourceFile (.start (Token.scan source) options) u s) (hm : s.mistakes = 0) :
    ∀ t ∈ (Token.scan source).ahead, .took t ∈ s.journal.events := by
  obtain ⟨s₂, hprogram, hs⟩ := runs_sourceFile h
  have hstart := (Session.Ended.start source options).advance
  obtain ⟨e, hcourse⟩ := TracksEnd.program (c := c) (p := fun _ => True) hstart trivial
  rw [hprogram] at hcourse
  rcases hs with ⟨hk, rfl⟩ | ⟨-, rfl⟩
  · obtain rfl := hcourse.eq_false (by simpa using hm)
    have hscanned := (hcourse.scanned hstart).1
    have hahead := (hcourse.ended hstart).ahead_eq_nil_iff.2 hk
    rw [start_scanned, Session.scanned, hahead, List.append_nil, if_neg (by simp),
      List.append_nil] at hscanned
    intro t ht
    rw [← hscanned, List.mem_reverse, List.mem_filterMap] at ht
    obtain ⟨e, he, htaken⟩ := ht
    cases e with
    | took t' =>
      obtain rfl : t' = t := by simpa [Event.taken?] using htaken
      exact List.mem_cons_of_mem _ he
    | reported d kept => simp [Event.taken?] at htaken
    | resumed => simp [Event.taken?] at htaken
  · simp at hm

/-- With too few tokens for the distance to start again from zero, a compilation has no diagnostics
exactly if its text has no lexical errors and it has made no report. -/
theorem diagnostics_eq_nil_iff (hfew : options.reportDistance = 0 ∨
      options.reportDistance.toNat + (Token.scan source).ahead.length < 2 ^ 32)
    {r : Compilation} (h : compile source options = .ok r) :
    r.diagnostics = [] ↔
      LexicallyCorrect source ∧ (journal source options).events.countP Event.isReport = 0 := by
  obtain ⟨s, hrun, -, hlog⟩ := runs_of_compile h
  have hreported := reported_of_runs hrun hfew
  have hjournal : journal source options = s.journal := congrArg (·.2.journal) hrun
  rw [hlog, hjournal]
  constructor
  · intro hnil
    have hm := hreported.mistakes hnil
    refine ⟨fun t ht => List.eq_nil_iff_forall_not_mem.2 fun d hd => ?_, hm⟩
    have hmem := Session.mem_log.2 ⟨_, took_of_runs hrun hm t ht, hd⟩
    rw [hnil] at hmem
    contradiction
  · rintro ⟨hcorrect, hm⟩
    exact (Session.log_eq_nil_iff hreported (quiet_of_runs hrun hcorrect)).2 hm

end Production

open Production

end MicroJava
