import Mathlib.Data.List.Basic
import Mathlib.Data.List.DropRight

/-!
# Words of a list

The words of a list are its nonempty runs between separators. They are those of its parts when the
list is cut at separators (`words_eq_flatMap_splitOnP`), they do not see separators at either end
(`words_trim`), and a list whose words have other separators at their ends only has their cores for
its words (`map_core_words`). -/

namespace Tellodb.Collections

variable {α : Type} {p q : α → Bool}

/-- Two lists are split at the first end alike. -/
theorem append_cons_inj_of_end {a : α} {x y l m : List α} (hx : a ∉ x) (hy : a ∉ y)
    (h : x ++ a :: l = y ++ a :: m) : x = y ∧ l = m := by
  rcases List.append_eq_append_iff.mp h with ⟨c, rfl, hc⟩ | ⟨c, rfl, hc⟩
  · cases c with
    | nil => exact ⟨by simp, by simpa using hc⟩
    | cons z c =>
      obtain ⟨rfl, -⟩ := List.cons.inj hc
      exact absurd (by simp) hy
  · cases c with
    | nil => exact ⟨by simp, by simpa using hc.symm⟩
    | cons z c =>
      obtain ⟨rfl, -⟩ := List.cons.inj hc
      exact absurd (by simp) hx

/-- The nonempty runs between separators. -/
def words (p : α → Bool) (l : List α) : List (List α) :=
  (l.splitOnP p).filter fun w => !w.isEmpty

/-- There are no words in nothing. -/
@[simp] theorem words_nil (p : α → Bool) : words p [] = [] := rfl

/-- A list is its words on both sides of a separator. -/
theorem words_append_cons (l m : List α) {a : α} (h : p a = true) :
    words p (l ++ a :: m) = words p l ++ words p m := by
  unfold words
  rw [List.splitOnP_append_cons l m h, List.filter_append]

/-- A map that leaves the separators apart from the rest maps the words. -/
theorem words_map {f : α → α} (hf : ∀ a, p (f a) = p a) (l : List α) :
    words p (l.map f) = (words p l).map (List.map f) := by
  have hsplit : (l.map f).splitOnP p = (l.splitOnP p).map (List.map f) := by
    induction l with
    | nil => rfl
    | cons a l ih =>
      rw [List.map_cons, List.splitOnP_cons_eq_if_modifyHead, List.splitOnP_cons_eq_if_modifyHead,
        hf, ih]
      cases p a with
      | true => rfl
      | false => cases l.splitOnP p <;> rfl
  unfold words
  rw [hsplit, List.filter_map]
  exact congrArg (List.map _) (List.filter_congr fun w _ => by cases w <;> rfl)

/-- A separator in front is not seen. -/
theorem words_cons (m : List α) {a : α} (h : p a = true) : words p (a :: m) = words p m :=
  words_append_cons [] m h

/-- A list without separators is one word. -/
theorem words_of_none {l : List α} (h : ∀ a ∈ l, p a = false) (hne : l ≠ []) :
    words p l = [l] := by
  unfold words
  rw [List.splitOnP_eq_singleton h, List.filter_cons_of_pos (by simpa using hne)]
  rfl

/-- Separators in front are not seen. -/
theorem words_append_of_all {l : List α} (h : ∀ a ∈ l, p a = true) (m : List α) :
    words p (l ++ m) = words p m := by
  induction l with
  | nil => rfl
  | cons a l ih =>
    rw [List.cons_append, words_cons _ (h a List.mem_cons_self),
      ih fun b hb => h b (List.mem_cons_of_mem _ hb)]

/-- Separators alone have no words. -/
theorem words_of_all {l : List α} (h : ∀ a ∈ l, p a = true) : words p l = [] := by
  have hwords := words_append_of_all h []
  rw [List.append_nil] at hwords
  exact hwords

/-- Separators behind are not seen. -/
theorem words_append_all (l : List α) {m : List α} (h : ∀ a ∈ m, p a = true) :
    words p (l ++ m) = words p l := by
  cases m with
  | nil => rw [List.append_nil]
  | cons a m =>
    rw [words_append_cons l m (h a List.mem_cons_self),
      words_of_all fun b hb => h b (List.mem_cons_of_mem _ hb), List.append_nil]

/-- A list has its last run of elements that are no separators behind a separator, or is it. -/
theorem exists_last_run (p : α → Bool) (l : List α) :
    (∀ a ∈ l, p a = false) ∨
      ∃ before a run, l = before ++ a :: run ∧ p a = true ∧ ∀ b ∈ run, p b = false := by
  induction l with
  | nil => exact .inl fun a ha => absurd ha List.not_mem_nil
  | cons x l ih =>
    rcases ih with hnone | ⟨before, a, run, rfl, ha, hrun⟩
    · cases hx : p x with
      | true => exact .inr ⟨[], x, l, rfl, hx, hnone⟩
      | false =>
        refine .inl fun a ha => ?_
        rcases List.mem_cons.mp ha with rfl | hmem
        · exact hx
        · exact hnone a hmem
    · exact .inr ⟨x :: before, a, run, rfl, ha, hrun⟩

/-- A word is a part of the list that is not empty and has no separator. -/
theorem mem_words {l w : List α} (h : w ∈ words p l) :
    w ≠ [] ∧ (∀ a ∈ w, p a = false) ∧ w ⊆ l := by
  induction hn : l.length using Nat.strong_induction_on generalizing l with
  | _ n ih =>
    have hlast : ∀ {run : List α}, (∀ a ∈ run, p a = false) → w ∈ words p run →
        w ≠ [] ∧ (∀ a ∈ w, p a = false) ∧ w ⊆ run := by
      intro run hrun hw
      by_cases hempty : run = []
      · rw [hempty] at hw
        exact absurd hw List.not_mem_nil
      · rw [words_of_none hrun hempty, List.mem_singleton] at hw
        rw [hw]
        exact ⟨hempty, hrun, List.Subset.refl _⟩
    rcases exists_last_run p l with hnone | ⟨before, a, run, rfl, ha, hrun⟩
    · exact hlast hnone h
    · rw [words_append_cons _ _ ha] at h
      rcases List.mem_append.mp h with hbefore | hmem
      · have hlength : before.length < n := by
          rw [← hn, List.length_append, List.length_cons]
          omega
        obtain ⟨hne, hnone, hsub⟩ := ih _ hlength hbefore rfl
        exact ⟨hne, hnone, fun b hb => List.mem_append_left _ (hsub hb)⟩
      · obtain ⟨hne, hnone, hsub⟩ := hlast hrun hmem
        exact ⟨hne, hnone, fun b hb =>
          List.mem_append_right _ (List.mem_cons_of_mem _ (hsub hb))⟩

/-- A list has no words if it has separators only. -/
theorem words_eq_nil_iff {l : List α} : words p l = [] ↔ ∀ a ∈ l, p a = true := by
  constructor
  · intro h
    induction hn : l.length using Nat.strong_induction_on generalizing l with
    | _ n ih =>
      -- The induction is on the length, since what stands before the last separator is shorter.
      rcases exists_last_run p l with hnone | ⟨before, a, run, rfl, ha, hrun⟩
      · by_cases hempty : l = []
        · rw [hempty]
          exact fun a ha => absurd ha List.not_mem_nil
        · rw [words_of_none hnone hempty] at h
          exact absurd h (List.cons_ne_nil _ _)
      · rw [words_append_cons _ _ ha] at h
        obtain ⟨hbefore, hafter⟩ := List.append_eq_nil_iff.mp h
        have hempty : run = [] := by
          by_contra hne
          rw [words_of_none hrun hne] at hafter
          exact List.cons_ne_nil _ _ hafter
        have hlength : before.length < n := by
          rw [← hn, List.length_append, List.length_cons]
          omega
        intro b hb
        rcases List.mem_append.mp hb with hb | hb
        · exact ih _ hlength hbefore rfl b hb
        · rw [hempty, List.mem_singleton] at hb
          rw [hb]
          exact ha
  · exact words_of_all

/-- What is added behind a list makes a word of its own, or lengthens the last word. -/
theorem words_concat {l w : List α} {a : α} (ha : p a = false) (h : w ∈ words p (l ++ [a])) :
    w ∈ words p l ∨ (∃ v ∈ words p l, w = v ++ [a]) ∨
      (w = [a] ∧ ∀ b, l.getLast? = some b → p b = true) := by
  -- The last element extends the run behind the last separator.
  have hlast : ∀ (before : List α) {run : List α}, (∀ b ∈ run, p b = false) →
      words p (before ++ run) = words p before ++ words p run →
      words p (before ++ (run ++ [a])) = words p before ++ words p (run ++ [a]) →
      (∀ b, (before ++ run).getLast? = some b → run = [] → p b = true) →
      w ∈ words p (before ++ (run ++ [a])) →
      w ∈ words p (before ++ run) ∨ (∃ v ∈ words p (before ++ run), w = v ++ [a]) ∨
        (w = [a] ∧ ∀ b, (before ++ run).getLast? = some b → p b = true) := by
    intro before run hrun hsplit hsplit' hend hw
    have hnone : ∀ b ∈ run ++ [a], p b = false := by
      intro b hb
      rcases List.mem_append.mp hb with hb | hb
      · exact hrun b hb
      · rw [List.mem_singleton.mp hb]
        exact ha
    rw [hsplit', words_of_none hnone (by simp)] at hw
    rw [hsplit]
    rcases List.mem_append.mp hw with hbefore | hmem
    · exact .inl (List.mem_append_left _ hbefore)
    · rw [List.mem_singleton] at hmem
      -- If the run was empty, the element starts a word.
      by_cases hempty : run = []
      · refine .inr (.inr ⟨by rw [hmem, hempty]; rfl, fun b hb => hend b hb hempty⟩)
      · refine .inr (.inl ⟨run, ?_, hmem⟩)
        rw [words_of_none hrun hempty]
        exact List.mem_append_right _ List.mem_cons_self
  rcases exists_last_run p l with hnone | ⟨before, b, run, rfl, hb, hrun⟩
  · have hmem := hlast [] hnone rfl rfl (fun b hb hempty => by
      rw [List.nil_append, hempty] at hb
      exact absurd hb (by simp)) h
    exact hmem
  · have hcons : ∀ m : List α, words p ((before ++ [b]) ++ m) =
        words p (before ++ [b]) ++ words p m := by
      intro m
      rw [List.append_assoc, List.singleton_append, words_append_cons _ _ hb,
        words_append_cons _ _ hb, words_nil, List.append_nil]
    have hl : before ++ b :: run = (before ++ [b]) ++ run := by simp
    rw [hl] at h ⊢
    rw [List.append_assoc] at h
    refine hlast _ hrun (hcons run) (hcons _) (fun c hc hempty => ?_) h
    rw [hempty, List.append_nil, List.getLast?_concat] at hc
    rw [← Option.some.inj hc]
    exact hb

/-- The words of a list that is cut at some of its separators. -/
theorem words_eq_flatMap_splitOnP (hq : ∀ a, q a = true → p a = true) (l : List α) :
    words p l = (l.splitOnP q).flatMap (words p) := by
  induction hn : l.length using Nat.strong_induction_on generalizing l with
  | _ n ih =>
    rcases exists_last_run q l with hnone | ⟨before, a, run, rfl, ha, hrun⟩
    · rw [List.splitOnP_eq_singleton hnone, List.flatMap_singleton]
    · rw [words_append_cons _ _ (hq a ha), List.splitOnP_append_cons _ _ ha, List.flatMap_append,
        List.splitOnP_eq_singleton hrun, List.flatMap_singleton, ih _ ?_ before rfl]
      rw [← hn, List.length_append, List.length_cons]
      omega

/-- The words of a list are those of its words, for more separators. -/
theorem flatMap_words (hq : ∀ a, q a = true → p a = true) (l : List α) :
    (words q l).flatMap (words p) = words p l := by
  rw [words_eq_flatMap_splitOnP hq l]
  unfold words
  induction l.splitOnP q with
  | nil => rfl
  | cons w ws ih =>
    rw [List.filter_cons, List.flatMap_cons]
    cases hw : w.isEmpty with
    | true =>
      rw [List.isEmpty_iff.mp hw]
      exact ih
    | false =>
      rw [if_pos (by simp), List.flatMap_cons, ih]

/-- Separators that are dropped in front are not seen. -/
theorem words_dropWhile (l : List α) : words p (l.dropWhile p) = words p l := by
  conv_rhs => rw [← List.takeWhile_append_dropWhile (p := p) (l := l)]
  exact (words_append_of_all (fun a ha => List.mem_takeWhile_imp ha) _).symm

/-- Separators that are dropped behind are not seen. -/
theorem words_rdropWhile (l : List α) : words p (l.rdropWhile p) = words p l := by
  induction l using List.reverseRecOn with
  | nil => rfl
  | append_singleton l a ih =>
    rw [List.rdropWhile_concat]
    split
    · rename_i ha
      rw [ih, words_append_all l]
      intro b hb
      rw [List.mem_singleton.mp hb]
      exact ha
    · rfl

/-! ## Joined lists -/

/-- Pieces are joined one behind the other. -/
theorem intercalate_concat (separator : List α) {run : List (List α)} (h : run ≠ [])
    (piece : List α) : separator.intercalate (run ++ [piece]) =
      separator.intercalate run ++ separator ++ piece := by
  induction run with
  | nil => exact absurd rfl h
  | cons first rest ih =>
    cases rest with
    | nil => simp [List.intercalate]
    | cons next rest =>
      rw [List.cons_append, List.cons_append, List.intercalate_cons_cons,
        List.intercalate_cons_cons, ← List.cons_append, ih (by simp)]
      simp

/-- A map that leaves the separator alone maps the pieces. -/
theorem map_intercalate {f : α → α} {separator : List α} (hf : separator.map f = separator)
    (run : List (List α)) :
    (separator.intercalate run).map f = separator.intercalate (run.map (List.map f)) := by
  induction run with
  | nil => rfl
  | cons first rest ih =>
    cases rest with
    | nil => simp
    | cons next rest =>
      rw [List.map_cons, List.map_cons, List.intercalate_cons_cons, List.intercalate_cons_cons,
        List.map_append, List.map_append, hf, ih, List.map_cons]

/-- A part is within the pieces that are joined. -/
theorem subset_intercalate (separator : List α) {run : List (List α)} {piece : List α}
    (h : piece ∈ run) : piece ⊆ separator.intercalate run := by
  induction run with
  | nil => exact absurd h List.not_mem_nil
  | cons first rest ih =>
    cases rest with
    | nil =>
      rw [List.intercalate_singleton, List.mem_singleton.mp h]
      exact List.Subset.refl _
    | cons next rest =>
      rw [List.intercalate_cons_cons]
      rcases List.mem_cons.mp h with rfl | hrest
      · exact fun c hc => List.mem_append_left _ (List.mem_append_left _ hc)
      · exact fun c hc => List.mem_append_right _ (ih hrest hc)

/-- The words of pieces that are joined by a separator are theirs. -/
theorem words_intercalate {a : α} {separator : List α} (ha : p a = true)
    (hseparator : ∀ b ∈ separator, p b = true) (pieces : List (List α)) :
    words p ((a :: separator).intercalate pieces) = pieces.flatMap (words p) := by
  induction pieces with
  | nil => rfl
  | cons piece pieces ih =>
    cases pieces with
    | nil => simp
    | cons next pieces =>
      rw [List.intercalate_cons_cons, List.append_assoc, List.cons_append,
        words_append_cons _ _ ha, words_append_of_all hseparator, ih]
      rfl

/-! ## Cores -/

/-- Each word has separators of the other kind at its end only, and not these alone. -/
def Tidy (p q : α → Bool) (l : List α) : Prop :=
  ∀ w ∈ words p l, w.rdropWhile q ≠ [] ∧ ∀ a ∈ w.rdropWhile q, q a = false

/-- The words of a tidy list, without the other separators at their ends, are its words for both
kinds of separators. -/
theorem map_core_words {l : List α} (h : Tidy p q l) :
    (words p l).map (List.rdropWhile q) = words (fun a => p a || q a) l := by
  rw [← flatMap_words (p := fun a => p a || q a) (q := p) (fun a ha => by simp [ha]) l,
    List.map_eq_flatMap]
  refine List.flatMap_congr fun w hw => ?_
  obtain ⟨hne, hcore⟩ := h w hw
  have hnone := (mem_words hw).2.1
  have hsplit : w.rdropWhile q ++ w.rtakeWhile q = w := List.rdropWhile_append_rtakeWhile
  have hend : ∀ a ∈ w.rtakeWhile q, (p a || q a) = true := by
    intro a ha
    rw [List.mem_rtakeWhile_imp ha, Bool.or_true]
  have hstart : ∀ a ∈ w.rdropWhile q, (p a || q a) = false := by
    intro a ha
    rw [hcore a ha, hnone a ((List.rdropWhile_prefix q w).subset ha)]
    rfl
  rw [← hsplit, words_append_all _ hend, words_of_none hstart hne, hsplit]

/-- A list without the other separators is tidy. -/
theorem tidy_of_none {l : List α} (h : ∀ a ∈ l, q a = false) : Tidy p q l := by
  intro w hw
  obtain ⟨hne, -, hsub⟩ := mem_words hw
  have hcore : w.rdropWhile q = w := by
    refine List.rdropWhile_eq_self_iff.mpr fun hl => ?_
    rw [h _ (hsub (List.getLast_mem hl))]
    exact Bool.false_ne_true
  rw [hcore]
  exact ⟨hne, fun a ha => h a (hsub ha)⟩

/-- Tidy lists on both sides of a separator. -/
theorem Tidy.append_cons {l m : List α} (hl : Tidy p q l) (hm : Tidy p q m) {a : α}
    (ha : p a = true) : Tidy p q (l ++ a :: m) := by
  intro w hw
  rw [words_append_cons _ _ ha] at hw
  rcases List.mem_append.mp hw with hw | hw
  · exact hl w hw
  · exact hm w hw

/-- A separator of the other kind behind a word. -/
theorem Tidy.concat {l : List α} (hl : Tidy p q l) {a b : α} (hlast : l.getLast? = some b)
    (hb : p b = false) (hp : p a = false) (hq : q a = true) : Tidy p q (l ++ [a]) := by
  intro w hw
  rcases words_concat hp hw with hold | ⟨v, hv, rfl⟩ | ⟨-, hend⟩
  · exact hl w hold
  · rw [List.rdropWhile_concat_pos _ _ _ hq]
    exact hl v hv
  · rw [hend b hlast] at hb
    exact absurd hb (by simp)

end Tellodb.Collections
