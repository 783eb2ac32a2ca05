import Mathlib.Data.List.Chain
import Mathlib.Data.List.ModifyLast
import Mathlib.Data.List.Sort
import Mathlib.Order.Lattice

/-!
# Timelines of superseding entries

A timeline lists entries in the order in which they take over from each other. Every entry holds
from its `start` to its `stop`, names the entry before it and the entry after it, and says whether
it is the latest. `Linked` states that these columns agree with the position of the entry:
neighbours name each other, an entry stops where the next one starts, and exactly the last entry
is the latest and has no end.

Two results carry the developments that use it. `Linked.splice` restores the links after an entry
is put between two halves of a timeline by touching only the entry and its two neighbours. And on
a timeline whose starts ascend, `Linked.filter_inForce` finds at every instant the last entry that
has started, so that no instant has two entries in force and none after the first start has
none. -/

namespace Tellodb.Relational

variable {ι τ : Type*}

/-- An entry of a timeline: its identity, when it holds, its neighbours, and whether it is the
latest. -/
structure Entry (ι τ : Type*) where
  /-- The entry's own identity. -/
  ident : ι
  /-- The first instant at which the entry holds. -/
  start : τ
  /-- The instant at which the next entry takes over. -/
  stop : Option τ
  /-- The entry this one replaced. -/
  previous : Option ι
  /-- The entry that replaced this one. -/
  next : Option ι
  /-- No entry has replaced this one. -/
  latest : Bool

namespace Entry

/-- `w` takes over from `v`: each names the other, and `v` stops where `w` starts. -/
structure Follows (v w : Entry ι τ) : Prop where
  /-- The earlier entry stops where the later one starts. -/
  stop : v.stop = some w.start
  /-- The earlier entry names the later one. -/
  next : v.next = some w.ident
  /-- The later entry names the earlier one. -/
  previous : w.previous = some v.ident
  /-- The earlier entry is not the latest. -/
  stale : v.latest = false

/-- The entry is open: nothing has replaced it. -/
structure Open (v : Entry ι τ) : Prop where
  /-- An open entry has no end. -/
  stop : v.stop = none
  /-- An open entry names no successor. -/
  next : v.next = none
  /-- An open entry is the latest. -/
  latest : v.latest = true

/-- The entry after `n` has replaced it. -/
def closedBy (v n : Entry ι τ) : Entry ι τ :=
  { v with stop := some n.start, next := some n.ident, latest := false }

/-- The entry after it has come to replace `n`. -/
def after (v n : Entry ι τ) : Entry ι τ :=
  { v with previous := some n.ident }

/-- The entry holds at the instant `p`. -/
def InForce [LE τ] [LT τ] (p : τ) (v : Entry ι τ) : Prop :=
  v.start ≤ p ∧ ∀ t ∈ v.stop, p < t

instance [LE τ] [LT τ] [DecidableLE τ] [DecidableLT τ] (p : τ) (v : Entry ι τ) :
    Decidable (v.InForce p) :=
  inferInstanceAs (Decidable (_ ∧ _))

end Entry

/-- An update of single elements that touches only the last one. -/
theorem map_eq_modifyLast {α : Type*} {l : List α} {f g : α → α}
    (hinit : ∀ a ∈ l.dropLast, f a = a) (hlast : ∀ a ∈ l.getLast?, f a = g a) :
    l.map f = l.modifyLast g := by
  rcases List.eq_nil_or_concat l with rfl | ⟨init, a, rfl⟩
  · rfl
  · rw [List.concat_eq_append] at *
    rw [List.dropLast_concat] at hinit
    rw [List.modifyLast_concat, List.map_append, List.map_singleton, hlast a (by simp),
      List.map_congr_left hinit, List.map_id']

/-- An update of single elements that touches only the first one. -/
theorem map_eq_modifyHead {α : Type*} {l : List α} {f g : α → α}
    (hhead : ∀ a ∈ l.head?, f a = g a) (htail : ∀ a ∈ l.tail, f a = a) :
    l.map f = l.modifyHead g := by
  cases l with
  | nil => rfl
  | cons a rest =>
    rw [List.tail_cons] at htail
    rw [List.map_cons, hhead a (by simp), List.map_congr_left htail, List.map_id',
      List.modifyHead_cons]

open Entry

/-- The columns of every entry agree with its position in the timeline. -/
structure Linked (chain : List (Entry ι τ)) : Prop where
  /-- Each entry takes over from the one before it. -/
  follows : chain.IsChain Follows
  /-- The first entry replaced nothing. -/
  first : ∀ v ∈ chain.head?, v.previous = none
  /-- The last entry is open. -/
  last : ∀ v ∈ chain.getLast?, v.Open

namespace Linked

/-- The empty timeline. -/
theorem nil : Linked ([] : List (Entry ι τ)) :=
  ⟨.nil, by simp, by simp⟩

/-- An entry put between two halves, its neighbours touched accordingly, completes the timeline.
The halves need only be linked in themselves, with no predecessor before the first half and an
open end after the second. -/
theorem splice {before after : List (Entry ι τ)} {n : Entry ι τ}
    (hbefore : before.IsChain Follows) (hafter : after.IsChain Follows)
    (hfirst : ∀ v ∈ before.head?, v.previous = none) (hlast : ∀ v ∈ after.getLast?, v.Open)
    (hprevious : n.previous = before.getLast?.map ident) (hnext : n.next = after.head?.map ident)
    (hstop : n.stop = after.head?.map start) (hlatest : n.latest = after.isEmpty) :
    Linked (before.modifyLast (·.closedBy n) ++ n :: after.modifyHead (·.after n)) := by
  -- The tail: the new entry and what follows it.
  have htail : (n :: after.modifyHead (·.after n)).IsChain Follows ∧
      ∀ v ∈ (n :: after.modifyHead (·.after n)).getLast?, v.Open := by
    cases after with
    | nil =>
      refine ⟨.singleton _, ?_⟩
      simpa using ⟨hstop, hnext, hlatest⟩
    | cons w rest =>
      have hw : Follows n (w.after n) := ⟨hstop, hnext, rfl, hlatest⟩
      have hrest : (w.after n :: rest).IsChain Follows := by
        rw [List.isChain_cons] at hafter ⊢
        exact ⟨fun y hy => ⟨(hafter.1 y hy).stop, (hafter.1 y hy).next, (hafter.1 y hy).previous,
          (hafter.1 y hy).stale⟩, hafter.2⟩
      refine ⟨List.isChain_cons.mpr ⟨by simpa using hw, by simpa using hrest⟩, ?_⟩
      cases rest with
      | nil =>
        obtain ⟨hs, hn, hl⟩ := hlast w (by simp)
        simpa using ⟨hs, hn, hl⟩
      | cons x rest =>
        intro v hv
        exact hlast v (by simpa using hv)
  -- The head: what precedes it, which ends in the entry it closes.
  rcases List.eq_nil_or_concat before with rfl | ⟨init, a, rfl⟩
  · refine ⟨htail.1, ?_, htail.2⟩
    intro v hv
    obtain rfl : n = v := by simpa [List.modifyLast, List.modifyLast.go] using hv
    simpa using hprevious
  · rw [List.concat_eq_append] at *
    have hinit := List.isChain_append.mp hbefore
    have hclosed : Follows (a.closedBy n) n := ⟨rfl, rfl, by simpa [closedBy] using hprevious, rfl⟩
    rw [List.modifyLast_concat, List.append_assoc, List.singleton_append]
    refine ⟨List.isChain_append.mpr ⟨hinit.1, ?_, ?_⟩, ?_, ?_⟩
    · exact List.isChain_cons.mpr ⟨by simpa using hclosed, htail.1⟩
    · intro x hx y hy
      obtain rfl : a.closedBy n = y := by simpa using hy
      obtain ⟨hs, hn, hp, hl⟩ := hinit.2.2 x hx a (by simp)
      exact ⟨hs, hn, hp, hl⟩
    · intro v hv
      cases init with
      | nil =>
        obtain rfl : a.closedBy n = v := by simpa using hv
        exact hfirst a (by simp)
      | cons b init => exact hfirst v (by simpa using hv)
    · intro v hv
      rw [List.getLast?_append_cons, List.getLast?_cons_cons] at hv
      exact htail.2 v hv

/-- The identities and starts of a timeline determine it. -/
theorem ext {chain chain' : List (Entry ι τ)} (h : Linked chain) (h' : Linked chain')
    (heq : chain.map (fun v => (v.ident, v.start)) = chain'.map fun v => (v.ident, v.start)) :
    chain = chain' := by
  obtain ⟨hfollows, hfirst, hlast⟩ := h
  obtain ⟨hfollows', hfirst', hlast'⟩ := h'
  -- The previous value is carried along the chain, so the chains agree on the first one.
  have hprevious : chain.head?.map Entry.previous = chain'.head?.map Entry.previous := by
    cases chain with
    | nil => rw [List.map_eq_nil_iff.mp heq.symm]
    | cons v rest =>
      cases chain' with
      | nil => exact absurd heq (by simp)
      | cons v' rest' => simp [hfirst v (by simp), hfirst' v' (by simp)]
  clear hfirst hfirst'
  induction chain generalizing chain' with
  | nil => exact (List.map_eq_nil_iff.mp heq.symm).symm
  | cons v rest ih =>
    cases chain' with
    | nil => exact absurd heq (by simp)
    | cons v' rest' =>
      rw [List.map_cons, List.map_cons, List.cons.injEq, Prod.mk.injEq] at heq
      obtain ⟨⟨hident, hstart⟩, hrest⟩ := heq
      have hprev : v.previous = v'.previous := by simpa using hprevious
      rw [List.isChain_cons] at hfollows hfollows'
      cases rest with
      | nil =>
        -- Both entries are the last.
        have hnil : rest' = [] := List.map_eq_nil_iff.mp hrest.symm
        subst hnil
        obtain ⟨hs, hn, hl⟩ := hlast v (by simp)
        obtain ⟨hs', hn', hl'⟩ := hlast' v' (by simp)
        obtain ⟨⟩ := v
        obtain ⟨⟩ := v'
        simp_all
      | cons w rest =>
        cases rest' with
        | nil => exact absurd hrest (by simp)
        | cons w' rest' =>
          have hw := hfollows.1 w (by simp)
          have hw' := hfollows'.1 w' (by simp)
          -- The next entries agree, and with them the ends of these.
          have hnext : w.ident = w'.ident ∧ w.start = w'.start := by
            rw [List.map_cons, List.map_cons, List.cons.injEq, Prod.mk.injEq] at hrest
            exact hrest.1
          have hrest := ih hrest hfollows.2 (by simpa using hlast) hfollows'.2
            (by simpa using hlast') (by simp [hw.previous, hw'.previous, hident])
          rw [hrest]
          congr 1
          obtain ⟨hs, hn, -, hl⟩ := hw
          obtain ⟨hs', hn', -, hl'⟩ := hw'
          obtain ⟨⟩ := v
          obtain ⟨⟩ := v'
          simp_all

variable {α : Type*} {f : α → Entry ι τ}

/-- The columns of an entry, read off its position. -/
theorem columns {before after : List α} {v : α} (h : Linked ((before ++ v :: after).map f)) :
    (f v).previous = before.getLast?.map (fun w => (f w).ident) ∧
      (f v).next = after.head?.map (fun w => (f w).ident) ∧
      (f v).stop = after.head?.map (fun w => (f w).start) ∧ (f v).latest = after.isEmpty := by
  rw [List.map_append, List.map_cons] at h
  obtain ⟨-, hfrom, hacross⟩ := List.isChain_append.mp h.follows
  have hprevious : (f v).previous = before.getLast?.map fun w => (f w).ident := by
    rcases List.eq_nil_or_concat before with rfl | ⟨init, a, rfl⟩
    · exact h.first (f v) (by simp)
    · rw [List.concat_eq_append] at *
      have ha := hacross (f a) (by simp) (f v) (by simp)
      simpa using ha.previous
  cases after with
  | nil =>
    obtain ⟨hs, hn, hl⟩ := h.last (f v) (by simp)
    exact ⟨hprevious, hn, hs, hl⟩
  | cons w rest =>
    have hw := (List.isChain_cons.mp hfrom).1 (f w) (by simp)
    exact ⟨hprevious, hw.next, hw.stop, hw.stale⟩

/-- Entries that have the columns of their positions are linked. -/
theorem of_columns {chain : List α} (h : ∀ before v after, chain = before ++ v :: after →
    (f v).previous = before.getLast?.map (fun w => (f w).ident) ∧
      (f v).next = after.head?.map (fun w => (f w).ident) ∧
      (f v).stop = after.head?.map (fun w => (f w).start) ∧ (f v).latest = after.isEmpty) :
    Linked (chain.map f) := by
  constructor
  · refine (List.isChain_map f).mpr (List.isChain_iff_forall_rel_of_append_cons_cons.mpr ?_)
    intro v w before after hsplit
    obtain ⟨-, hnext, hstop, hlatest⟩ := h before v (w :: after) hsplit
    obtain ⟨hprevious, -⟩ := h (before ++ [v]) w after (by simpa using hsplit)
    exact ⟨hstop, hnext, by simpa using hprevious, hlatest⟩
  · cases chain with
    | nil => simp
    | cons v after => simpa using (h [] v after rfl).1
  · rcases List.eq_nil_or_concat chain with rfl | ⟨before, v, hsplit⟩
    · simp
    · rw [List.concat_eq_append] at hsplit
      obtain ⟨-, hnext, hstop, hlatest⟩ := h before v [] hsplit
      subst hsplit
      intro w hw
      obtain rfl : f v = w := by simpa using hw
      exact ⟨hstop, hnext, hlatest⟩

/-- Exactly the last entry is the latest. -/
theorem filter_latest {chain : List α} (h : Linked (chain.map f)) :
    chain.filter (fun v => (f v).latest) = chain.getLast?.toList := by
  rcases List.eq_nil_or_concat chain with rfl | ⟨init, v, rfl⟩
  · rfl
  · rw [List.concat_eq_append] at *
    have hstale : init.filter (fun v => (f v).latest) = [] := by
      rw [List.filter_eq_nil_iff]
      intro a ha
      obtain ⟨before, after, rfl⟩ := List.append_of_mem ha
      rw [List.append_assoc, List.cons_append] at h
      rw [h.columns.2.2.2]
      cases after <;> simp
    have hlatest : (f v).latest = true := h.columns.2.2.2
    rw [List.filter_append, hstale]
    simp [hlatest]

variable [LinearOrder τ]

/-- At every instant the entry in force is the last one that has started. -/
theorem filter_inForce {chain : List α} (h : Linked (chain.map f))
    (hs : chain.Pairwise fun v w => (f v).start ≤ (f w).start) (p : τ) :
    chain.filter (fun v => (f v).InForce p) =
      (chain.filter fun v => (f v).start ≤ p).getLast?.toList := by
  obtain ⟨hfollows, -, hlast⟩ := h
  induction chain with
  | nil => rfl
  | cons v rest ih =>
    rw [List.pairwise_cons] at hs
    rw [List.map_cons, List.isChain_cons] at hfollows
    cases rest with
    | nil =>
      -- An open entry is in force as soon as it has started.
      have hopen := hlast (f v) (by simp)
      have hin : (f v).InForce p ↔ (f v).start ≤ p := by simp [InForce, hopen.stop]
      by_cases hv : (f v).start ≤ p <;> simp [hin, hv]
    | cons w rest =>
      have hw := hfollows.1 (f w) (by simp)
      have ih := ih hs.2 hfollows.2 (by simpa using hlast)
      by_cases hwp : (f w).start ≤ p
      · -- The next entry has started too: `v` is over.
        have hin : ¬ (f v).InForce p := fun hin => absurd hwp (not_le.mpr (hin.2 _ hw.stop))
        have hv : (f v).start ≤ p := le_trans (hs.1 w (by simp)) hwp
        have hne : (w :: rest).filter (fun x => (f x).start ≤ p) ≠ [] :=
          List.ne_nil_of_mem (List.mem_filter.mpr ⟨List.mem_cons_self, by simpa using hwp⟩)
        rw [List.filter_cons_of_neg (by simpa using hin), ih, List.filter_cons (x := v),
          if_pos (by simpa using hv), List.getLast?_cons_of_ne_nil hne]
      · -- Nothing after `v` has started.
        have hnone : (w :: rest).filter (fun x => (f x).start ≤ p) = [] := by
          rw [List.filter_eq_nil_iff]
          intro x hx
          have hwx : (f w).start ≤ (f x).start := by
            rcases List.mem_cons.mp hx with rfl | hx
            · exact le_refl _
            · exact (List.pairwise_cons.mp hs.2).1 x hx
          simpa using lt_of_lt_of_le (not_le.mp hwp) hwx
        have hin : (f v).InForce p ↔ (f v).start ≤ p := by
          simp only [InForce, hw.stop, Option.mem_def, Option.some.injEq, forall_eq',
            and_iff_left_iff_imp]
          exact fun _ => not_le.mp hwp
        rw [List.filter_cons, ih, hnone, List.filter_cons, hnone]
        by_cases hv : (f v).start ≤ p <;> simp [hin, hv]

end Linked

end Tellodb.Relational
