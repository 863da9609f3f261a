import LanguageWorkbench.Pattern.Engine
import LanguageWorkbench.Proofs.Outcome
import LanguageWorkbench.Proofs.Reachability

/-!
# What a match of a program depends on

A match depends on the characters it takes and on what conditions tell of the one after
them. Before a character that is no part of a word every condition holds less often than at
the end of a text, so that a match that ends there may end the text as well.

Results:
* `Place.Alike`: texts that no condition tells apart.
* `Program.find_agree`: the matches in two texts with a common start.
* `Program.find_cut`: the matches in a text that is cut off.
* `Pattern.isLocal`: the engine of this library depends on no more than the next character.
-/

namespace LanguageWorkbench

/-! ## Conditions -/

namespace Place

/-- No condition tells two texts apart. -/
def Alike (x y : List Char) : Prop :=
  ∀ (offset : Nat) (before : Option Char) (q : Place),
    q.holds ⟨offset, before, x⟩ = q.holds ⟨offset, before, y⟩

/-- Whatever condition holds before the first text holds before the second. -/
def Weaker (x y : List Char) : Prop :=
  ∀ (offset : Nat) (before : Option Char) (q : Place),
    q.holds ⟨offset, before, x⟩ = true → q.holds ⟨offset, before, y⟩ = true

/-- Only the next character is told. -/
theorem alike_cons (d : Char) (x y : List Char) : Alike (d :: x) (d :: y) :=
  fun _ _ q => by cases q <;> rfl

/-- Texts that no condition tells apart stay so with more in front of them. -/
theorem Alike.append {x y : List Char} (h : Alike x y) (u : List Char) :
    Alike (u ++ x) (u ++ y) := by
  cases u with
  | nil => exact h
  | cons d u => exact alike_cons d (u ++ x) (u ++ y)

/-- Whether a character is part of a word. -/
def isWord (unicode : Bool) (c : Char) : Bool := (EscapeClass.word.chars unicode).contains c

/-- The words of ASCII are made of the characters of words that are in ASCII. -/
theorem isWord_false_eq (c : Char) : isWord false c = (isWord true c && c.toNat < 128) := by
  have hsmall : ∀ n < 128, CharSet.inRanges n Text.wordCharacters.ranges =
      CharSet.inRanges n AsciiClass.word.chars.ranges := by
    decide +kernel
  show CharSet.inRanges c.toNat AsciiClass.word.chars.ranges =
    (CharSet.inRanges c.toNat Text.wordCharacters.ranges && c.toNat < 128)
  by_cases h : c.toNat < 128
  · rw [hsmall _ h, decide_eq_true h, Bool.and_true]
  · rw [decide_eq_false h, Bool.and_false]
    simp only [AsciiClass.chars, CharSet.inRanges, Bool.or_false, Bool.and_eq_false_iff,
      Bool.or_eq_false_iff, decide_eq_false_iff_not]
    omega

/-- Characters of words are told apart only by the words they are part of. -/
theorem alike_of_alike {d e : Char} (h : Regex.Alike (isWord true) d e) (x y : List Char) :
    Alike (d :: x) (e :: y) := by
  rcases h with rfl | ⟨hd, he, hascii⟩
  · exact alike_cons d x y
  have hne : ∀ c : Char, isWord true c = true → c ≠ '\n' ∧ c ≠ '\r' := by
    intro c hc
    constructor
    · rintro rfl
      exact absurd hc (by decide)
    · rintro rfl
      exact absurd hc (by decide)
  obtain ⟨hd₁, hd₂⟩ := hne d hd
  obtain ⟨he₁, he₂⟩ := hne e he
  have hsort : ∀ unicode, isWord unicode d = isWord unicode e := by
    intro unicode
    cases unicode with
    | true => rw [hd, he]
    | false => rw [isWord_false_eq, isWord_false_eq, hd, he, decide_eq_decide.2 hascii]
  intro offset before q
  cases q with
  | textStart => rfl
  | textEnd => rfl
  | lineStart carriageReturns => simp [holds, atLineStart, hd₁, he₁]
  | lineEnd carriageReturns => simp [holds, atLineEnd, hd₁, hd₂, he₁, he₂]
  | word e unicode =>
    have := hsort unicode
    simp only [isWord] at this
    simp [holds, this]

/-- At the end of a text holds what holds before a character that is no part of a word. -/
theorem weaker_nil {d : Char} (hd : isWord true d = false) (x : List Char) :
    Weaker (d :: x) [] := by
  have hword : ∀ unicode, (EscapeClass.word.chars unicode).contains d = false := by
    intro unicode
    cases unicode with
    | true => exact hd
    | false => exact (isWord_false_eq d).trans (by rw [hd, Bool.false_and])
  intro offset before q h
  cases q with
  | textStart => exact h
  | textEnd => rfl
  | lineStart carriageReturns =>
    cases before with
    | none => rfl
    | some c =>
      simp only [holds, atLineStart, Bool.or_eq_true, Bool.and_eq_true, decide_eq_true_eq] at h ⊢
      exact h.imp_right fun h => ⟨h.1, by simp⟩
  | lineEnd carriageReturns => rfl
  | word e unicode => simpa [holds, hword] using h

end Place

namespace Program

open Place (Alike Weaker)

variable {p : Program} {c c' : Cursor} {x y : List Char}

/-! ## Following instructions -/

theorem follow_congr (h : ∀ q : Place, q.holds c = q.holds c') (fuel : Nat) (threads : Threads)
    (label : Nat) : p.follow c fuel threads label = p.follow c' fuel threads label := by
  induction fuel generalizing threads label with
  | zero => rfl
  | succ fuel ih =>
    simp only [follow, h, ih]

theorem take_congr (h : ∀ q : Place, q.holds c = q.holds c') (d : Char) :
    p.take d c = p.take d c' := by
  funext threads label
  simp only [take, follow_congr h]

/-- The instructions that an instruction leads to at a place. -/
def links (p : Program) (c : Cursor) (label : Nat) : List Nat :=
  match p.code[label]? with
  | some (.jump next) => [next]
  | some (.place q next) => if q.holds c then [next] else []
  | some (.split first second) => [first, second]
  | _ => []

/-- A thread waits at the instruction. -/
def Waits (p : Program) (label : Nat) : Prop :=
  ∃ i, p.code[label]? = some i ∧ ((∃ s next, i = .char s next) ∨ i = .done)

/-- Threads at the instructions of a walk. -/
structure Tracks (p : Program) (visited : List Nat) (threads : Threads) : Prop where
  followed : ∀ n, n ∈ threads.followed ↔ n ∈ visited
  waiting : ∀ n, n ∈ threads.waiting ↔ n ∈ visited ∧ p.Waits n

theorem tracks_none : p.Tracks [] .none :=
  ⟨fun n => iff_of_false (NatSet.not_mem_empty n) List.not_mem_nil,
    fun n => by simp [Threads.none]⟩

section

variable {visited : List Nat} {threads : Threads} (h : p.Tracks visited threads) (label : Nat)

include h

theorem Tracks.mem_insert (n : Nat) : n ∈ threads.followed.insert label ↔ n ∈ label :: visited := by
  rw [NatSet.mem_insert, List.mem_cons, h.followed n, or_comm]

/-- No thread is added where none waits. -/
theorem Tracks.pass (hwaits : ¬ p.Waits label) :
    p.Tracks (label :: visited) { threads with followed := threads.followed.insert label } := by
  refine ⟨h.mem_insert label, fun n => ?_⟩
  rw [h.waiting n, List.mem_cons]
  constructor
  · exact And.imp_left .inr
  · rintro ⟨rfl | hn, hw⟩
    · exact absurd hw hwaits
    · exact ⟨hn, hw⟩

/-- A thread is added where it waits. -/
theorem Tracks.wait (hwaits : p.Waits label) : p.Tracks (label :: visited)
    ⟨label :: threads.waiting, threads.followed.insert label⟩ := by
  refine ⟨h.mem_insert label, fun n => ?_⟩
  rw [List.mem_cons, List.mem_cons, h.waiting n]
  constructor
  · rintro (rfl | ⟨hn, hw⟩)
    · exact ⟨.inl rfl, hwaits⟩
    · exact ⟨.inr hn, hw⟩
  · rintro ⟨rfl | hn, hw⟩
    · exact .inl rfl
    · exact .inr ⟨hn, hw⟩

end

/-- Following instructions is a walk along their links. -/
theorem Tracks.follow {visited : List Nat} {threads : Threads} (fuel : Nat) (label : Nat)
    (h : p.Tracks visited threads) :
    p.Tracks (visit (p.links c) fuel visited label) (p.follow c fuel threads label) := by
  induction fuel generalizing visited threads label with
  | zero => exact h
  | succ fuel ih =>
    unfold visit Program.follow
    by_cases hlabel : label ∈ visited
    · rw [if_pos hlabel, if_pos ((h.followed label).2 hlabel)]
      exact h
    -- only an instruction that waits for a character, or ends, becomes a thread
    · rw [if_neg hlabel, if_neg fun hmem => hlabel ((h.followed label).1 hmem)]
      have hno : (∀ s next, p.code[label]? ≠ some (.char s next)) → p.code[label]? ≠ some .done →
          ¬ p.Waits label := by
        rintro hchar hdone ⟨i, hi, ⟨s, next, rfl⟩ | rfl⟩
        · exact hchar s next hi
        · exact hdone hi
      cases hcode : p.code[label]? with
      | none => simpa [links, hcode] using h.pass label (hno (by simp [hcode]) (by simp [hcode]))
      | some i =>
        cases i with
        | char s next => simpa [links, hcode] using h.wait label ⟨_, hcode, .inl ⟨s, next, rfl⟩⟩
        | done => simpa [links, hcode] using h.wait label ⟨_, hcode, .inr rfl⟩
        | jump next =>
          have hpass := h.pass label (hno (by simp [hcode]) (by simp [hcode]))
          simpa [links, hcode] using ih next hpass
        | split first second =>
          have hpass := h.pass label (hno (by simp [hcode]) (by simp [hcode]))
          simpa [links, hcode] using ih second (ih first hpass)
        | place q next =>
          have hpass := h.pass label (hno (by simp [hcode]) (by simp [hcode]))
          by_cases hq : q.holds c = true
          · simpa [links, hcode, hq] using ih next hpass
          · simpa [links, hcode, hq] using hpass

theorem Tracks.foldl_follow {visited : List Nat} {threads : Threads} (starts : List Nat)
    (h : p.Tracks visited threads) :
    p.Tracks (starts.foldl (visit (p.links c) (p.code.size + 1)) visited)
      (starts.foldl (p.follow c (p.code.size + 1)) threads) := by
  induction starts generalizing visited threads with
  | nil => exact h
  | cons start starts ih => exact ih (h.follow _ start)

theorem lt_of_links {label : Nat} (h : p.links c label ≠ []) : label < p.code.size := by
  by_contra hlt
  exact h (by simp [links, Array.getElem?_eq_none (Nat.le_of_not_lt hlt)])

theorem links_mono (h : ∀ q : Place, q.holds c = true → q.holds c' = true) {n m : Nat}
    (hm : m ∈ p.links c n) : m ∈ p.links c' n := by
  unfold links at hm ⊢
  split at hm
  · exact hm
  · rename_i q next hcode
    by_cases hq : q.holds c = true
    · rw [if_pos hq] at hm
      simpa [hcode, h q hq] using hm
    · rw [if_neg hq] at hm
      cases hm
  · exact hm
  · cases hm

/-- Where more conditions hold, more threads wait after a character. -/
theorem waiting_mono (h : ∀ q : Place, q.holds c = true → q.holds c' = true) (starts : List Nat) :
    ∀ n ∈ (starts.foldl (p.follow c (p.code.size + 1)) .none).waiting,
      n ∈ (starts.foldl (p.follow c' (p.code.size + 1)) .none).waiting := by
  intro n hn
  obtain ⟨hn, hwaits⟩ := ((tracks_none.foldl_follow starts).waiting n).1 hn
  refine ((tracks_none.foldl_follow starts).waiting n).2 ⟨?_, hwaits⟩
  -- fewer links lead from a start to no more instructions
  rw [mem_foldl_visit_iff fun _ => lt_of_links] at hn ⊢
  obtain ⟨start, hstart, hpath⟩ := hn
  exact ⟨start, hstart, hpath.lift id fun _ _ hlink => links_mono h hlink⟩

/-! ## Matches in texts with a common start -/

/-- Two searches find the same, or one of them finds a match that ends after a place. -/
def Agree (m : Nat) (a b : Option Nat) : Prop :=
  a = b ∨ (∃ n, a = some n ∧ m < n) ∨ ∃ n, b = some n ∧ m < n

/-- The match that ends here, or a match that ends later. -/
theorem run_cases (text : List Char) (offset : Nat) (best : Option Nat) (threads : List Nat) :
    p.run offset best text threads = (if threads.any p.isDone then some offset else best) ∨
      ∃ n, p.run offset best text threads = some n ∧ offset < n := by
  induction text generalizing offset best threads with
  | nil => exact .inl rfl
  | cons d text ih =>
    simp only [run]
    split
    · exact .inl rfl
    · rename_i label others _
      rcases ih (offset + 1) (if threads.any p.isDone then some offset else best)
        ((label :: others).foldl (p.take d ⟨offset + 1, some d, text⟩) .none).waiting.reverse
        with h | ⟨n, h, hn⟩
      · rw [h]
        split_ifs
        · exact .inr ⟨offset + 1, rfl, Nat.lt_succ_self offset⟩
        · exact .inr ⟨offset + 1, rfl, Nat.lt_succ_self offset⟩
        · exact .inl rfl
        · exact .inl rfl
      · exact .inr ⟨n, h, Nat.lt_of_succ_lt hn⟩

/-- A match ends where its search starts or later. -/
theorem le_of_findAt {n : Nat} (h : p.findAt c = some n) : c.offset ≤ n := by
  unfold findAt at h
  rcases run_cases (p := p) c.rest c.offset none (p.follow c (p.code.size + 1) .none 0).waiting.reverse
    with hrun | ⟨n', hrun, hlt⟩
  · rw [hrun] at h
    split_ifs at h
    exact Nat.le_of_eq (Option.some.inj h)
  · rw [hrun] at h
    exact Nat.le_of_lt (Option.some.inj h ▸ hlt)

theorem run_agree (h : Alike x y) (u : List Char) (offset : Nat) (best : Option Nat)
    (threads : List Nat) : Agree (offset + u.length) (p.run offset best (u ++ x) threads)
      (p.run offset best (u ++ y) threads) := by
  induction u generalizing offset best threads with
  | nil =>
    rcases run_cases (p := p) x offset best threads with hx | hx
    · rcases run_cases (p := p) y offset best threads with hy | hy
      · exact .inl (hx.trans hy.symm)
      · exact .inr (.inr hy)
    · exact .inr (.inl hx)
  | cons d u ih =>
    have htake : p.take d ⟨offset + 1, some d, u ++ x⟩ = p.take d ⟨offset + 1, some d, u ++ y⟩ :=
      take_congr (h.append u _ _) d
    simp only [List.cons_append, run, htake]
    split
    · exact .inl rfl
    · rw [List.length_cons, show offset + (u.length + 1) = offset + 1 + u.length by omega]
      exact ih (offset + 1) _ _

theorem findAt_agree (h : Alike x y) (u : List Char) (offset : Nat) (before : Option Char) :
    Agree (offset + u.length) (p.findAt ⟨offset, before, u ++ x⟩)
      (p.findAt ⟨offset, before, u ++ y⟩) := by
  have hfollow : p.follow ⟨offset, before, u ++ x⟩ (p.code.size + 1) .none 0 =
      p.follow ⟨offset, before, u ++ y⟩ (p.code.size + 1) .none 0 :=
    follow_congr (h.append u _ _) _ _ _
  unfold findAt
  rw [hfollow]
  exact run_agree h u offset none _

theorem le_offset_of_onward {text : List Char} {offset : Nat} {before : Option Char}
    (h : c ∈ Cursor.onward offset before text) : offset ≤ c.offset := by
  induction text generalizing offset before with
  | nil => exact Nat.le_of_eq (by rw [List.mem_singleton.1 h])
  | cons d text ih =>
    rcases List.mem_cons.1 h with rfl | h
    · exact Nat.le_refl _
    · exact Nat.le_of_succ_le (ih h)

theorem findSome?_onward_cons (p : Program) (offset : Nat) (before : Option Char) (d : Char)
    (text : List Char) : (Cursor.onward offset before (d :: text)).findSome? p.findAt =
      (p.findAt ⟨offset, before, d :: text⟩).or
        ((Cursor.onward (offset + 1) (some d) text).findSome? p.findAt) := by
  rw [Cursor.onward, List.findSome?_cons]
  cases p.findAt ⟨offset, before, d :: text⟩ <;> rfl

/-- Searches that start later find matches that end later. -/
theorem exists_onward (p : Program) (offset : Nat) (before : Option Char) (text : List Char) :
    ∃ later : Option Nat, (∀ n, later = some n → offset < n) ∧
      (Cursor.onward offset before text).findSome? p.findAt =
        (p.findAt ⟨offset, before, text⟩).or later := by
  cases text with
  | nil => exact ⟨none, by simp, by simp [Cursor.onward]⟩
  | cons d text =>
    refine ⟨(Cursor.onward (offset + 1) (some d) text).findSome? p.findAt, fun n h => ?_,
      findSome?_onward_cons p offset before d text⟩
    obtain ⟨c, hc, hfind⟩ := List.exists_of_findSome?_eq_some h
    exact Nat.lt_of_lt_of_le (le_offset_of_onward hc) (le_of_findAt hfind)

theorem agree_of_lt {m : Nat} {a b : Option Nat} (ha : ∀ n, a = some n → m < n)
    (hb : ∀ n, b = some n → m < n) : Agree m a b := by
  cases a with
  | some n => exact .inr (.inl ⟨n, rfl, ha n rfl⟩)
  | none =>
    cases b with
    | some n => exact .inr (.inr ⟨n, rfl, hb n rfl⟩)
    | none => exact .inl rfl

theorem Agree.or {m : Nat} {a b a' b' : Option Nat} (h : Agree m a b) (h' : Agree m a' b') :
    Agree m (a.or a') (b.or b') := by
  rcases h with rfl | ⟨n, rfl, hn⟩ | ⟨n, rfl, hn⟩
  · cases a with
    | none => exact h'
    | some n => exact .inl rfl
  · exact .inr (.inl ⟨n, rfl, hn⟩)
  · exact .inr (.inr ⟨n, rfl, hn⟩)

theorem onward_agree (h : Alike x y) (u : List Char) (offset : Nat) (before : Option Char) :
    Agree (offset + u.length) ((Cursor.onward offset before (u ++ x)).findSome? p.findAt)
      ((Cursor.onward offset before (u ++ y)).findSome? p.findAt) := by
  induction u generalizing offset before with
  | nil =>
    obtain ⟨a, ha, hx⟩ := exists_onward p offset before x
    obtain ⟨b, hb, hy⟩ := exists_onward p offset before y
    rw [List.nil_append, List.nil_append, hx, hy]
    exact (findAt_agree h [] offset before).or (agree_of_lt ha hb)
  | cons d u ih =>
    have hlater := ih (offset + 1) (some d)
    rw [Nat.add_right_comm] at hlater
    rw [List.cons_append, List.cons_append, findSome?_onward_cons, findSome?_onward_cons]
    exact (findAt_agree h (d :: u) offset before).or hlater

/-- The matches that end in a common start of two texts are the same, unless one text has
    a match that ends later. -/
theorem find_agree (h : Alike x y) (u : List Char) :
    Agree u.length (p.find (u ++ x)) (p.find (u ++ y)) := by
  unfold find
  split_ifs
  · have hstart := (findAt_agree (p := p) h u 0 none).or (.inl (rfl : none = none))
    simpa [Cursor.start] using hstart
  · simpa using onward_agree h u 0 none

/-! ## Matches in a text that is cut off -/

/-- A match that ends where the text is cut off stays, and no other one is new. -/
def Cut (m : Nat) (a b : Option Nat) : Prop :=
  (a = some m → b = some m) ∧ (a = none → b = none ∨ b = some m)

@[refl] theorem Cut.refl (m : Nat) (a : Option Nat) : Cut m a a := ⟨id, .inl⟩

theorem Cut.or {m : Nat} {a b a' b' : Option Nat} (h : Cut m a b) (h' : Cut m a' b') :
    Cut m (a.or a') (b.or b') := by
  cases a with
  | none =>
    rcases h.2 rfl with rfl | rfl
    · exact h'
    · exact ⟨fun _ => rfl, fun _ => .inr rfl⟩
  | some n =>
    refine ⟨fun hn => ?_, nofun⟩
    rw [h.1 hn]
    rfl

/-- More threads may end a match at the end of a text. -/
theorem run_nil_cut (text : List Char) (offset : Nat) (best : Option Nat)
    {threads threads' : List Nat} (h : ∀ n ∈ threads, n ∈ threads') :
    Cut offset (p.run offset best text threads) (p.run offset best [] threads') := by
  have hdone : threads.any p.isDone = true → threads'.any p.isDone = true := by
    intro hany
    obtain ⟨n, hn, hdone⟩ := List.any_eq_true.1 hany
    exact List.any_eq_true.2 ⟨n, h n hn, hdone⟩
  rw [run]
  rcases run_cases (p := p) text offset best threads with hrun | ⟨n, hrun, hlt⟩
  · rw [hrun]
    split_ifs with hany hany'
    · exact .refl ..
    · exact absurd (hdone hany) hany'
    · exact ⟨fun _ => rfl, fun _ => .inr rfl⟩
    · exact .refl ..
  · rw [hrun]
    exact ⟨fun hn => absurd (Option.some.inj hn) (Nat.ne_of_gt hlt),
      fun hnone => absurd hnone (Option.some_ne_none n)⟩

/-- The instruction after a thread that takes a character. -/
def next? (p : Program) (d : Char) (label : Nat) : Option Nat :=
  match p.code[label]? with
  | some (.char s next) => if s.contains d then some next else none
  | _ => none

/-- Threads take a character anywhere in the same way, and go on by the place after it. -/
theorem foldl_take (d : Char) (threads : Threads) (labels : List Nat) :
    labels.foldl (p.take d c) threads =
      (labels.filterMap (p.next? d)).foldl (p.follow c (p.code.size + 1)) threads := by
  rw [List.foldl_filterMap]
  congr 1
  funext threads label
  unfold take next?
  cases p.code[label]? with
  | none => rfl
  | some i =>
    cases i with
    | char s next => by_cases hs : s.contains d = true <;> simp [hs]
    | place q next => rfl
    | split first second => rfl
    | jump next => rfl
    | done => rfl

theorem run_cut (h : Weaker x []) (u : List Char) (offset : Nat) (best : Option Nat)
    (threads : List Nat) : Cut (offset + u.length) (p.run offset best (u ++ x) threads)
      (p.run offset best u threads) := by
  induction u generalizing offset best threads with
  | nil => exact run_nil_cut x offset best fun _ h => h
  | cons d u ih =>
    simp only [List.cons_append, run]
    split
    · exact .refl ..
    · rename_i label others _
      rw [List.length_cons, show offset + (u.length + 1) = offset + 1 + u.length by omega]
      cases u with
      | nil =>
        refine run_nil_cut x (offset + 1) _ fun n hn => ?_
        rw [List.mem_reverse, foldl_take] at hn ⊢
        exact waiting_mono (fun q => h _ _ q) _ n hn
      | cons d' u =>
        have htake : p.take d ⟨offset + 1, some d, d' :: u ++ x⟩ =
            p.take d ⟨offset + 1, some d, d' :: u⟩ := take_congr (Place.alike_cons d' (u ++ x) u _ _) d
        rw [htake]
        exact ih (offset + 1) _ _

theorem findAt_cut (h : Weaker x []) (u : List Char) (offset : Nat) (before : Option Char) :
    Cut (offset + u.length) (p.findAt ⟨offset, before, u ++ x⟩) (p.findAt ⟨offset, before, u⟩) := by
  unfold findAt
  cases u with
  | nil =>
    refine run_nil_cut x offset none fun n hn => ?_
    rw [List.mem_reverse] at hn ⊢
    exact waiting_mono (fun q => h _ _ q) [0] n hn
  | cons d u =>
    have hfollow : p.follow ⟨offset, before, d :: u ++ x⟩ (p.code.size + 1) .none 0 =
        p.follow ⟨offset, before, d :: u⟩ (p.code.size + 1) .none 0 :=
      follow_congr (Place.alike_cons d (u ++ x) u _ _) _ _ _
    rw [hfollow]
    exact run_cut h (d :: u) offset none _

theorem onward_cut (h : Weaker x []) (u : List Char) (offset : Nat) (before : Option Char) :
    Cut (offset + u.length) ((Cursor.onward offset before (u ++ x)).findSome? p.findAt)
      ((Cursor.onward offset before u).findSome? p.findAt) := by
  induction u generalizing offset before with
  | nil =>
    obtain ⟨later, hlater, hx⟩ := exists_onward p offset before x
    have hcut : Cut offset later none :=
      ⟨fun h => absurd (hlater _ h) (Nat.lt_irrefl _), fun _ => .inl rfl⟩
    have hhere := (findAt_cut (p := p) h [] offset before).or hcut
    rw [List.nil_append, hx]
    simpa [Cursor.onward] using hhere
  | cons d u ih =>
    have hlater := ih (offset + 1) (some d)
    rw [Nat.add_right_comm] at hlater
    rw [List.cons_append, findSome?_onward_cons, findSome?_onward_cons]
    exact (findAt_cut h (d :: u) offset before).or hlater

/-- A match that ends where a text is cut off, before no character of a word, stays. -/
theorem find_cut (h : Weaker x []) (u : List Char) : Cut u.length (p.find (u ++ x)) (p.find u) := by
  unfold find
  split_ifs
  · have hstart := findAt_cut (p := p) h u 0 none
    simpa [Cursor.start] using hstart
  · simpa using onward_cut h u 0 none

end Program

/-! ## The engine -/

/-- What a program matches depends on no more than the next character. -/
theorem Program.isLocal (p : Program) : p.regex.IsLocal (Place.isWord true) where
  agree h u x y := by
    rcases p.find_agree (Place.alike_of_alike h x y) u with hsame | ⟨n, hn, hlt⟩ | ⟨n, hn, hlt⟩
    · exact .inl hsame
    · exact .inr ⟨n, hlt, .inl hn⟩
    · exact .inr ⟨n, hlt, .inr hn⟩
  cut hd u x h := (p.find_cut (Place.weaker_nil hd x) u).1 h

theorem Pattern.isLocal : engine.IsLocal (Place.isWord true) where
  letters c hc := by
    simp only [List.mem_cons, List.not_mem_nil, or_false] at hc
    rcases hc with rfl | rfl | rfl | rfl <;> decide +kernel
  regexes pattern r h := by
    obtain ⟨p, -, rfl⟩ := map_eq_ok_iff.1 h
    exact p.isLocal

end LanguageWorkbench
