import LanguageTheory.Proofs.Words.Order

/-! Sampling a graph whose nodes have a rank: the length of the word at a node that has one, and never less
than the ranks of the nodes before it. A node waits in the bucket of its rank, so when a bucket is empty
everything of its rank and below has been followed, and the words of this length are all there. This takes no
more steps than the bound allows for. -/

namespace LanguageTheory

/-! ### What a graph offers -/

namespace WordGraph

variable {ν : Type} {graph : WordGraph ν} {rank : ν → Nat} {requested longest : Nat} {root n : ν} {w : Word}

/-- The rank is the length of words, and grows along the edges. -/
structure Ranked (graph : WordGraph ν) (rank : ν → Nat) : Prop where
  length_eq : ∀ n w, graph.word? n = some w → w.length = rank n
  rank_le : ∀ n, ∀ e ∈ graph.successors (rank n) n, rank n ≤ rank e.2

/-- The nodes reached through nodes of no more than a greatest rank. -/
inductive Leads (graph : WordGraph ν) (rank : ν → Nat) (longest : Nat) (root : ν) : ν → Prop
  | root : Leads graph rank longest root root
  | step {n : ν} {e : Nat × ν} : Leads graph rank longest root n → e ∈ graph.successors (rank n) n →
      rank e.2 ≤ longest → Leads graph rank longest root e.2

/-- The words at these nodes. -/
def Offers (graph : WordGraph ν) (rank : ν → Nat) (longest : Nat) (root : ν) (w : Word) : Prop :=
  ∃ n, graph.Leads rank longest root n ∧ graph.word? n = some w

theorem Leads.rank_root_le (hranked : graph.Ranked rank) (h : graph.Leads rank longest root n) :
    rank root ≤ rank n := by
  induction h with
  | root => exact Nat.le_refl _
  | @step n e _ he _ ih => exact Nat.le_trans ih (hranked.rank_le n e he)

theorem Leads.rank_le (h : graph.Leads rank longest root n) (hroot : rank root ≤ longest) : rank n ≤ longest := by
  cases h with
  | root => exact hroot
  | step _ _ hle => exact hle

/-- What sampling may return. -/
structure Returns (graph : WordGraph ν) (rank : ν → Nat) (requested longest : Nat) (root : ν) (r : Words) : Prop where
  requested_eq : r.requested = requested
  complete : r.complete = true → Words.First requested (graph.Offers rank longest root) r.words
  incomplete : r.complete = false → Words.Begins requested (graph.Offers rank longest root) r.words

theorem Returns.exact {r : Words} {P : Word → Prop} (h : graph.Returns rank requested longest root r)
    (hoffers : ∀ w, graph.Offers rank longest root w ↔ P w ∧ w.length ≤ longest) :
    r.Exact requested longest P := by
  have heq : graph.Offers rank longest root = fun w => P w ∧ w.length ≤ longest :=
    funext fun w => propext (hoffers w)
  obtain ⟨hrequested, hcomplete, hincomplete⟩ := h
  rw [heq] at hcomplete hincomplete
  exact ⟨hrequested, fun h l => (hcomplete h).eq_iff, fun h => (hincomplete h).of_length_le⟩

end WordGraph

namespace Sampling

variable {ν : Type} {graph : WordGraph ν} {rank : ν → Nat} {requested longest bound length l : Nat}
  {root node n : ν} {entries : List (Nat × ν)} {later : List (Nat × List ν)} {followed front nodes : List ν} {w : Word}

/-! ### Buckets -/

/-- Buckets of ascending lengths, all beyond a first one, with at least one node of their rank each. -/
inductive Buckets (rank : ν → Nat) : Nat → List (Nat × List ν) → Prop
  | nil {length : Nat} : Buckets rank length []
  | cons {length l : Nat} {nodes : List ν} {rest : List (Nat × List ν)} : length < l → nodes ≠ [] →
      (∀ n ∈ nodes, rank n = l) → Buckets rank l rest → Buckets rank length ((l, nodes) :: rest)

theorem buckets_cons : Buckets rank length ((l, nodes) :: later) ↔
    length < l ∧ nodes ≠ [] ∧ (∀ n ∈ nodes, rank n = l) ∧ Buckets rank l later :=
  ⟨fun h => by cases h with | cons hlt hne hnodes hrest => exact ⟨hlt, hne, hnodes, hrest⟩,
    fun ⟨hlt, hne, hnodes, hrest⟩ => .cons hlt hne hnodes hrest⟩

theorem Buckets.lt (h : Buckets rank length later) (hn : n ∈ later.flatMap (·.2)) : length < rank n := by
  induction h with
  | nil => exact (List.not_mem_nil hn).elim
  | cons hlt _ hnodes _ ih =>
      rw [List.flatMap_cons, List.mem_append] at hn
      rcases hn with hn | hn
      · rw [hnodes n hn]
        exact hlt
      · exact Nat.lt_trans hlt (ih hn)

theorem Buckets.insertLater (h : Buckets rank length later) (hlt : length < rank n) :
    Buckets rank length (insertLater (rank n) n later) := by
  induction h with
  | nil => exact .cons hlt (List.cons_ne_nil _ _) (fun m hm => by rw [List.mem_singleton.1 hm]) .nil
  | @cons length l nodes rest hl hne hnodes hrest ih =>
      rw [Sampling.insertLater]
      split
      · rename_i heq
        refine .cons hl (List.cons_ne_nil _ _) (fun m hm => ?_) hrest
        rcases List.mem_cons.1 hm with rfl | hm
        · exact heq
        · exact hnodes m hm
      · split
        · rename_i hbefore
          exact .cons hlt (List.cons_ne_nil _ _) (fun m hm => by rw [List.mem_singleton.1 hm])
            (.cons hbefore hne hnodes hrest)
        · exact .cons hl hne hnodes (ih (by omega))

theorem flatMap_insertLater_perm (length : Nat) (node : ν) (later : List (Nat × List ν)) :
    ((insertLater length node later).flatMap (·.2)).Perm (node :: later.flatMap (·.2)) := by
  induction later with
  | nil => exact List.Perm.refl _
  | cons bucket rest ih =>
      rw [insertLater]
      split
      · exact List.Perm.refl _
      · split
        · exact List.Perm.refl _
        · rw [List.flatMap_cons, List.flatMap_cons]
          exact (ih.append_left bucket.2).trans List.perm_middle

/-! ### Where sampling comes to -/

variable [BEq ν] [Hashable ν] {s s' : Sampling ν}

/-- The next node is taken, and its word is found. -/
def taken (graph : WordGraph ν) (s : Sampling ν) (node : ν) (front : List ν) : Sampling ν :=
  { s with front, found := (graph.word? node).toList ++ s.found }

/-- The rest of the bucket is turned over. -/
def turned (s : Sampling ν) : Sampling ν := { s with front := s.back.reverse, back := [] }

/-- The bucket is closed, and the next one is opened. -/
def opened (requested : Nat) (s : Sampling ν) (length : Nat) (nodes : List ν) (later : List (Nat × List ν)) :
    Sampling ν :=
  { s.absorb requested with length, later, back := nodes }

/-- What a step can do. -/
inductive Stepped (graph : WordGraph ν) (requested longest bound : Nat) (s : Sampling ν) : Words ⊕ Sampling ν → Prop
  | follow {node : ν} {front : List ν} {s' : Sampling ν} : s.front = node :: front →
      enterAll longest bound (graph.successors s.length node) (s.taken graph node front) = (true, s') →
      Stepped graph requested longest bound s (.inr s')
  | give_up {node : ν} {front : List ν} {s' : Sampling ν} : s.front = node :: front →
      enterAll longest bound (graph.successors s.length node) (s.taken graph node front) = (false, s') →
      Stepped graph requested longest bound s (.inl (s'.finish requested false))
  | turn : s.front = [] → s.back ≠ [] → Stepped graph requested longest bound s (.inr s.turned)
  | next {length : Nat} {nodes : List ν} {later : List (Nat × List ν)} : s.front = [] → s.back = [] →
      s.later = (length, nodes) :: later → (s.absorb requested).words.length < requested →
      Stepped graph requested longest bound s (.inr (s.opened requested length nodes later))
  | close : s.front = [] → s.back = [] → s.later = [] ∨ requested ≤ (s.absorb requested).words.length →
      Stepped graph requested longest bound s (.inl ((s.absorb requested).finish requested true))

theorem stepped (graph : WordGraph ν) (requested longest bound : Nat) (s : Sampling ν) :
    Stepped graph requested longest bound s (s.step graph requested longest bound) := by
  unfold step
  split
  · rename_i node front hfront
    dsimp only
    split
    · exact .follow hfront ‹_›
    · exact .give_up hfront ‹_›
  · rename_i last back hfront hback
    rw [← hback]
    exact .turn hfront (by rw [hback]; exact List.cons_ne_nil _ _)
  · rename_i hfront hback
    dsimp only
    split
    · rename_i hlater
      split
      · rename_i hroom
        exact .close hfront hback (Or.inr hroom)
      · rename_i hroom
        exact .next hfront hback hlater (Nat.lt_of_not_le hroom)
    · rename_i hlater
      exact .close hfront hback (Or.inl hlater)

/-- What sampling comes to before it is over. -/
inductive Passes (graph : WordGraph ν) (requested longest bound : Nat) (start : Sampling ν) : Sampling ν → Prop
  | start : Passes graph requested longest bound start start
  | step {s s' : Sampling ν} : Passes graph requested longest bound start s →
      s.step graph requested longest bound = .inr s' → Passes graph requested longest bound start s'

/-- A node is followed without more nodes than the bound allows. -/
def Follows (graph : WordGraph ν) (requested longest bound : Nat) (start : Sampling ν) (n : ν) : Prop :=
  ∃ s s', Passes graph requested longest bound start s ∧ s.step graph requested longest bound = .inr s' ∧
    s.front.head? = some n

/-- The nodes that are still to be followed. -/
def pending (s : Sampling ν) : List ν := s.front ++ s.back ++ s.later.flatMap (·.2)

/-- Every node waits in the bucket of its rank. -/
structure Sorted (rank : ν → Nat) (s : Sampling ν) : Prop where
  rank_eq : ∀ n ∈ s.front ++ s.back, rank n = s.length
  later : Buckets rank s.length s.later

theorem Sorted.enqueue (h : s.Sorted rank) (hle : s.length ≤ rank n) : (s.enqueue (rank n) n).Sorted rank := by
  unfold Sampling.enqueue
  split
  · rename_i heq
    refine ⟨fun m hm => ?_, h.later⟩
    rcases List.mem_append.1 hm with hm | hm
    · exact h.rank_eq m (List.mem_append_left _ hm)
    · rcases List.mem_cons.1 hm with rfl | hm
      · exact heq
      · exact h.rank_eq m (List.mem_append_right _ hm)
  · split
    · rename_i hlt
      exact ⟨h.rank_eq, h.later.insertLater hlt⟩
    · omega

theorem pending_enqueue_perm (hle : s.length ≤ length) : (s.enqueue length node).pending.Perm (node :: s.pending) := by
  unfold Sampling.enqueue
  split
  · have hback : (s.front ++ node :: s.back).Perm (node :: (s.front ++ s.back)) := List.perm_middle
    exact hback.append_right _
  · split
    · exact ((flatMap_insertLater_perm length node s.later).append_left _).trans List.perm_middle
    · omega

/-! ### What holds on the way -/

/-- Where sampling is: the nodes that have been followed are done with, and nothing is lost. -/
structure Invariant (graph : WordGraph ν) (rank : ν → Nat) (requested longest : Nat) (root : ν)
    (followed : List ν) (s : Sampling ν) : Prop where
  sorted : s.Sorted rank
  seen_iff : ∀ n, n ∈ s.seen ↔ n ∈ followed ∨ n ∈ s.pending
  root_seen : root ∈ s.seen
  leads : ∀ n ∈ s.seen, graph.Leads rank longest root n
  rank_le : ∀ n ∈ followed, rank n ≤ s.length
  closed : ∀ n ∈ followed, ∀ e ∈ graph.successors (rank n) n, rank e.2 ≤ longest → e.2 ∈ s.seen
  found_iff : ∀ w, w ∈ s.found ↔ w.length = s.length ∧ ∃ n ∈ followed, graph.word? n = some w
  below : Words.Below s.length (graph.Offers rank longest root) s.words
  room : s.words.length < requested

/-- What the bound still allows for. Each node is followed once, turned over once and closes at most one
bucket. -/
def weight (bound : Nat) (s : Sampling ν) : Nat :=
  3 * (bound + 1 - s.generated) + s.front.length + 2 * s.back.length + 3 * (s.later.flatMap (·.2)).length

/-- What a graph leads to has been followed, or something before it is still to be followed. -/
theorem Invariant.followed_or_pending (h : Invariant graph rank requested longest root followed s)
    (hranked : graph.Ranked rank) (hleads : graph.Leads rank longest root n) :
    n ∈ followed ∨ ∃ p ∈ s.pending, rank p ≤ rank n := by
  have hseen : ∀ n ∈ s.seen, n ∈ followed ∨ ∃ p ∈ s.pending, rank p ≤ rank n := by
    intro n hn
    exact ((h.seen_iff n).1 hn).imp_right fun hpending => ⟨n, hpending, Nat.le_refl _⟩
  induction hleads with
  | root => exact hseen root h.root_seen
  | @step n e _ he hle ih =>
      rcases ih with hfollowed | ⟨p, hp, hple⟩
      · exact hseen e.2 (h.closed n hfollowed e he hle)
      · exact Or.inr ⟨p, hp, Nat.le_trans hple (hranked.rank_le n e he)⟩

/-- When nothing of a bucket is left, all words of its length have been found. -/
theorem Invariant.mem_found_iff (h : Invariant graph rank requested longest root followed s)
    (hranked : graph.Ranked rank) (hfront : s.front = []) (hback : s.back = []) (w : Word) :
    w ∈ s.found ↔ graph.Offers rank longest root w ∧ w.length = s.length := by
  rw [h.found_iff, and_comm]
  refine and_congr_left fun hlength => ⟨?_, ?_⟩
  · rintro ⟨n, hn, hword⟩
    exact ⟨n, h.leads n ((h.seen_iff n).2 (Or.inl hn)), hword⟩
  · rintro ⟨n, hleads, hword⟩
    refine ⟨n, (h.followed_or_pending hranked hleads).resolve_right ?_, hword⟩
    rintro ⟨p, hp, hle⟩
    rw [pending, hfront, hback] at hp
    have hlt := h.sorted.later.lt hp
    rw [← hranked.length_eq n w hword, hlength] at hle
    omega

/-! ### The next node -/

/-- The graph leads to the next node, whose rank is the length of the bucket. -/
theorem Invariant.head (h : Invariant graph rank requested longest root followed s)
    (hnode : s.front.head? = some node) : rank node = s.length ∧ graph.Leads rank longest root node := by
  have hmem : node ∈ s.front ++ s.back := List.mem_append_left _ (List.mem_of_mem_head? hnode)
  exact ⟨h.sorted.rank_eq node hmem, h.leads node ((h.seen_iff node).2 (Or.inr (List.mem_append_left _ hmem)))⟩

theorem mem_pending_taken (graph : WordGraph ν) (hfront : s.front = node :: front) (n : ν) :
    n ∈ s.pending ↔ n = node ∨ n ∈ (s.taken graph node front).pending := by
  rw [pending, hfront, List.cons_append, List.cons_append, List.mem_cons]
  rfl

theorem weight_taken (graph : WordGraph ν) (bound : Nat) (hfront : s.front = node :: front) :
    (s.taken graph node front).weight bound + 1 = s.weight bound := by
  simp only [weight, taken, hfront, List.length_cons]
  omega

theorem Sorted.taken (h : s.Sorted rank) (hfront : s.front = node :: front) :
    (s.taken graph node front).Sorted rank := by
  refine ⟨fun n hn => h.rank_eq n ?_, h.later⟩
  rw [hfront]
  exact List.mem_cons_of_mem _ hn

/-! ### Turning over and closing a bucket -/

theorem weight_turned_lt (bound : Nat) (hfront : s.front = []) (hback : s.back ≠ []) :
    s.turned.weight bound < s.weight bound := by
  have hpos := List.length_pos_iff.2 hback
  simp only [weight, turned, hfront, List.length_reverse, List.length_nil]
  omega

theorem Invariant.turned (h : Invariant graph rank requested longest root followed s) (hfront : s.front = []) :
    Invariant graph rank requested longest root followed s.turned := by
  have hpending : ∀ n, n ∈ s.turned.pending ↔ n ∈ s.pending := by
    intro n
    rw [pending, pending, hfront]
    simp [Sampling.turned]
  refine ⟨⟨fun n hn => h.sorted.rank_eq n ?_, h.sorted.later⟩, fun n => ?_, h.root_seen, h.leads, h.rank_le,
    h.closed, h.found_iff, h.below, h.room⟩
  · simpa [Sampling.turned, hfront] using hn
  · rw [hpending]
    exact h.seen_iff n

theorem weight_opened_lt (bound : Nat) (hfront : s.front = []) (hback : s.back = [])
    (hlater : s.later = (length, nodes) :: later) (hne : nodes ≠ []) :
    (s.opened requested length nodes later).weight bound < s.weight bound := by
  have hpos := List.length_pos_iff.2 hne
  simp only [weight, opened, absorb, hfront, hback, hlater, List.flatMap_cons, List.length_append, List.length_nil]
  omega

/-- There are no words of a length between a bucket and the next one. -/
theorem Invariant.opened (h : Invariant graph rank requested longest root followed s) (hranked : graph.Ranked rank)
    (hfront : s.front = []) (hback : s.back = []) (hlater : s.later = (length, nodes) :: later)
    (hroom : (s.absorb requested).words.length < requested) :
    Invariant graph rank requested longest root followed (s.opened requested length nodes later) := by
  obtain ⟨hlt, hne, hnodes, hrest⟩ := buckets_cons.1 (hlater ▸ h.sorted.later)
  have hpending : s.pending = nodes ++ later.flatMap (·.2) := by
    rw [pending, hfront, hback, hlater]
    rfl
  have hpending' : (s.opened requested length nodes later).pending = s.pending := by
    rw [hpending, pending, Sampling.opened, absorb, hfront]
    rfl
  constructor
  case sorted =>
    refine ⟨fun n hn => hnodes n ?_, hrest⟩
    simpa [Sampling.opened, absorb, hfront] using hn
  case seen_iff =>
    intro n
    rw [hpending']
    exact h.seen_iff n
  case root_seen => exact h.root_seen
  case leads => exact h.leads
  case rank_le => exact fun n hn => Nat.le_trans (h.rank_le n hn) (Nat.le_of_lt hlt)
  case closed => exact h.closed
  case found_iff =>
    refine fun w => ⟨fun hw => (List.not_mem_nil hw).elim, ?_⟩
    rintro ⟨hlength, n, hn, hword⟩
    have hle := h.rank_le n hn
    rw [← hranked.length_eq n w hword, hlength] at hle
    exact (Nat.not_lt.2 hle hlt).elim
  case below =>
    refine h.below.next (fun w => ?_) hroom hlt ?_
    · rw [Ascending.mem_ofList, List.mem_reverse]
      exact h.mem_found_iff hranked hfront hback w
    rintro w ⟨n, hleads, hword⟩
    rw [hranked.length_eq n w hword]
    refine (h.followed_or_pending hranked hleads).imp (h.rank_le n) ?_
    rintro ⟨p, hp, hle⟩
    refine Nat.le_trans ?_ hle
    rw [hpending, List.mem_append] at hp
    rcases hp with hp | hp
    · exact Nat.le_of_eq (hnodes p hp).symm
    · exact Nat.le_of_lt (hrest.lt hp)
  case room => exact hroom

theorem words_finish_absorb (s : Sampling ν) (requested : Nat) (complete : Bool) :
    ((s.absorb requested).finish requested complete).words = (s.absorb requested).words := by
  simp [finish, absorb, Ascending.ofList]

/-- With a bucket closed there are enough words, or there is nothing left to be followed. -/
theorem Invariant.closed_last (h : Invariant graph rank requested longest root followed s)
    (hranked : graph.Ranked rank) (hfront : s.front = []) (hback : s.back = [])
    (hend : s.later = [] ∨ requested ≤ (s.absorb requested).words.length) :
    graph.Returns rank requested longest root ((s.absorb requested).finish requested true) := by
  refine ⟨rfl, fun _ => ?_, (fun hcomplete => Bool.noConfusion hcomplete)⟩
  rw [words_finish_absorb]
  refine h.below.first (fun w => ?_) (Nat.le_of_lt h.room) (hend.imp_left fun hlater => ?_)
  · rw [Ascending.mem_ofList, List.mem_reverse]
    exact h.mem_found_iff hranked hfront hback w
  rintro w ⟨n, hleads, hword⟩
  rw [hranked.length_eq n w hword]
  rcases h.followed_or_pending hranked hleads with hn | ⟨p, hp, _⟩
  · exact h.rank_le n hn
  · rw [pending, hfront, hback, hlater] at hp
    exact (List.not_mem_nil hp).elim

/-! ### Entering nodes -/

theorem weight_enqueue_le (bound length : Nat) (node : ν) (s : Sampling ν) :
    (s.enqueue length node).weight bound ≤ s.weight bound + 3 := by
  unfold enqueue
  split
  · simp only [weight, List.length_cons]
    omega
  · split
    · simp only [weight, (flatMap_insertLater_perm length node s.later).length_eq, List.length_cons]
      omega
    · omega

/-- What entering nodes leaves as it is. -/
structure Kept (s s' : Sampling ν) : Prop where
  length_eq : s'.length = s.length
  front_eq : s'.front = s.front
  found_eq : s'.found = s.found
  words_eq : s'.words = s.words

theorem kept_enqueue (s : Sampling ν) (length : Nat) (node : ν) : Kept s (s.enqueue length node) := by
  unfold enqueue
  split
  · exact ⟨rfl, rfl, rfl, rfl⟩
  · split <;> exact ⟨rfl, rfl, rfl, rfl⟩

theorem kept_enterAll (longest bound : Nat) (entries : List (Nat × ν)) (s : Sampling ν) :
    Kept s (enterAll longest bound entries s).2 := by
  fun_induction enterAll longest bound entries s with
  | case1 s => exact ⟨rfl, rfl, rfl, rfl⟩
  | case2 length node entries s hskip ih => exact ih
  | case3 length node entries s hskip admitted hstop => exact ⟨rfl, rfl, rfl, rfl⟩
  | case4 length node entries s hskip admitted hstop ih =>
      have h := kept_enqueue admitted length node
      exact ⟨ih.length_eq.trans h.length_eq, ih.front_eq.trans h.front_eq, ih.found_eq.trans h.found_eq,
        ih.words_eq.trans h.words_eq⟩

theorem seen_enqueue (s : Sampling ν) (length : Nat) (node : ν) : (s.enqueue length node).seen = s.seen := by
  unfold enqueue
  split
  · rfl
  · split <;> rfl

/-- What entering the successors of a node does if the bound allows it: the nodes of the list that are not too
long are seen, and those that are new are still to be followed. -/
structure Entered (rank : ν → Nat) (longest bound : Nat) (nodes : List ν) (s s' : Sampling ν) : Prop where
  seen_iff : ∀ n, n ∈ s'.seen ↔ n ∈ s.seen ∨ n ∈ nodes ∧ rank n ≤ longest
  pending_iff : ∀ n, n ∈ s'.pending ↔ n ∈ s.pending ∨ n ∉ s.seen ∧ n ∈ nodes ∧ rank n ≤ longest
  sorted : s'.Sorted rank
  weight_le : s'.weight bound ≤ s.weight bound

variable [LawfulBEq ν]

theorem entered_enterAll (hsorted : s.Sorted rank)
    (hentries : ∀ e ∈ entries, e.1 = rank e.2 ∧ s.length ≤ rank e.2)
    (h : enterAll longest bound entries s = (true, s')) :
    Entered rank longest bound (entries.map (·.2)) s s' := by
  fun_induction enterAll longest bound entries s with
  | case1 s =>
      cases h
      exact ⟨by simp, by simp, hsorted, Nat.le_refl _⟩
  | case2 length node entries s hskip ih =>
      have hentered := ih hsorted (fun e he => hentries e (List.mem_cons_of_mem _ he)) h
      have heq : length = rank node := (hentries _ List.mem_cons_self).1
      rw [Bool.or_eq_true, decide_eq_true_iff, Std.HashSet.contains_iff_mem, heq] at hskip
      refine ⟨fun n => ?_, fun n => ?_, hentered.sorted, hentered.weight_le⟩
      · rw [hentered.seen_iff, List.map_cons, List.mem_cons]
        grind
      · rw [hentered.pending_iff, List.map_cons, List.mem_cons]
        grind
  | case3 length node entries s hskip admitted hstop => cases h
  | case4 length node entries s hskip admitted hstop ih =>
      obtain ⟨heq, hle⟩ : length = rank node ∧ s.length ≤ rank node := hentries _ List.mem_cons_self
      subst heq
      have hadmitted : admitted.Sorted rank := ⟨hsorted.rank_eq, hsorted.later⟩
      have hlength := (kept_enqueue admitted (rank node) node).length_eq
      have hentered := ih (hadmitted.enqueue hle)
        (fun e he => hlength ▸ hentries e (List.mem_cons_of_mem _ he)) h
      have hseen : ∀ n, n ∈ (admitted.enqueue (rank node) node).seen ↔ n = node ∨ n ∈ s.seen := by
        intro n
        rw [seen_enqueue, Std.HashSet.mem_insert, beq_iff_eq, eq_comm]
      have hpending : ∀ n, n ∈ (admitted.enqueue (rank node) node).pending ↔ n = node ∨ n ∈ s.pending := by
        intro n
        rw [(pending_enqueue_perm (s := admitted) hle).mem_iff, List.mem_cons]
        rfl
      rw [Bool.or_eq_true, decide_eq_true_iff, Std.HashSet.contains_iff_mem] at hskip
      refine ⟨fun n => ?_, fun n => ?_, hentered.sorted, ?_⟩
      · rw [hentered.seen_iff, hseen, List.map_cons, List.mem_cons]
        grind
      · rw [hentered.pending_iff, hseen, hpending, List.map_cons, List.mem_cons]
        grind
      · calc
          s'.weight bound ≤ (admitted.enqueue (rank node) node).weight bound := hentered.weight_le
          _ ≤ admitted.weight bound + 3 := weight_enqueue_le bound (rank node) node admitted
          _ = s.weight bound := by
            simp only [weight, admitted] at hstop ⊢
            omega

/-! ### Following a node -/

/-- The next node is followed, and its successors are entered. -/
theorem Invariant.follow (h : Invariant graph rank requested longest root followed s) (hranked : graph.Ranked rank)
    (hfront : s.front = node :: front) (hranks : ∀ e ∈ graph.successors (rank node) node, e.1 = rank e.2)
    (hs : enterAll longest bound (graph.successors s.length node) (s.taken graph node front) = (true, s')) :
    Invariant graph rank requested longest root (node :: followed) s' ∧ s'.weight bound < s.weight bound := by
  obtain ⟨hrank, hleads⟩ := h.head (by rw [hfront]; rfl)
  have hkept := kept_enterAll longest bound (graph.successors s.length node) (s.taken graph node front)
  rw [hs] at hkept
  rw [← hrank] at hs
  have hentries : ∀ e ∈ graph.successors (rank node) node, e.1 = rank e.2 ∧ s.length ≤ rank e.2 :=
    fun e he => ⟨hranks e he, hrank ▸ hranked.rank_le node e he⟩
  have hentered := entered_enterAll (h.sorted.taken hfront) hentries hs
  have hlength : s'.length = s.length := hkept.length_eq
  have hwords : s'.words = s.words := hkept.words_eq
  have hseen : ∀ n, n ∈ s'.seen ↔ n ∈ s.seen ∨
      n ∈ (graph.successors (rank node) node).map (·.2) ∧ rank n ≤ longest := hentered.seen_iff
  have hpending : ∀ n, n ∈ s'.pending ↔ n ∈ (s.taken graph node front).pending ∨ n ∉ s.seen ∧
      n ∈ (graph.successors (rank node) node).map (·.2) ∧ rank n ≤ longest := hentered.pending_iff
  constructor
  · constructor
    case sorted => exact hentered.sorted
    case seen_iff =>
      intro n
      rw [hseen, hpending, h.seen_iff, mem_pending_taken graph hfront, List.mem_cons]
      grind
    case root_seen => exact (hseen root).2 (Or.inl h.root_seen)
    case leads =>
      intro n hn
      rcases (hseen n).1 hn with hn | ⟨hn, hle⟩
      · exact h.leads n hn
      · obtain ⟨e, he, rfl⟩ := List.mem_map.1 hn
        exact hleads.step he hle
    case rank_le =>
      intro n hn
      rw [hlength]
      rcases List.mem_cons.1 hn with rfl | hn
      · exact Nat.le_of_eq hrank
      · exact h.rank_le n hn
    case closed =>
      intro n hn e he hle
      rw [hseen]
      rcases List.mem_cons.1 hn with rfl | hn
      · exact Or.inr ⟨List.mem_map_of_mem he, hle⟩
      · exact Or.inl (h.closed n hn e he hle)
    case found_iff =>
      intro w
      have hword : graph.word? node = some w → w.length = s.length := fun hword =>
        (hranked.length_eq node w hword).trans hrank
      rw [hkept.found_eq, hlength, taken, List.mem_append, Option.mem_toList, h.found_iff, List.exists_mem_cons_iff]
      grind
    case below =>
      rw [hlength, hwords]
      exact h.below
    case room =>
      rw [hwords]
      exact h.room
  · have hle := hentered.weight_le
    have hweight := weight_taken graph bound hfront
    omega

omit [LawfulBEq ν] in
/-- The next node has more successors than the bound allows. -/
theorem Invariant.give_up (h : Invariant graph rank requested longest root followed s) (hranked : graph.Ranked rank)
    (hfront : s.front = node :: front)
    (hs : enterAll longest bound (graph.successors s.length node) (s.taken graph node front) = (false, s')) :
    graph.Returns rank requested longest root (s'.finish requested false) := by
  obtain ⟨hrank, hleads⟩ := h.head (by rw [hfront]; rfl)
  have hkept := kept_enterAll longest bound (graph.successors s.length node) (s.taken graph node front)
  rw [hs] at hkept
  refine ⟨rfl, (fun hcomplete => Bool.noConfusion hcomplete), fun _ => ?_⟩
  rw [finish, absorb, hkept.words_eq, hkept.found_eq, taken]
  refine h.below.begins (fun w hw => ?_) (Nat.le_of_lt h.room)
  rw [Ascending.mem_ofList, List.mem_reverse, List.mem_append, Option.mem_toList] at hw
  rcases hw with hw | hw
  · exact ⟨⟨node, hleads, hw⟩, (hranked.length_eq node w hw).trans hrank⟩
  · obtain ⟨hlength, n, hn, hword⟩ := (h.found_iff w).1 hw
    exact ⟨⟨n, h.leads n ((h.seen_iff n).2 (Or.inl hn)), hword⟩, hlength⟩

/-! ### A whole run -/

theorem invariant_start (hranked : graph.Ranked rank) (hpos : 0 < requested) :
    Invariant graph rank requested longest root [] (start (rank root) root) where
  sorted := ⟨fun n hn => by rw [List.mem_singleton.1 hn]; rfl, .nil⟩
  seen_iff n := by
    rw [start, Std.HashSet.mem_insert, beq_iff_eq, eq_comm]
    simp [pending]
  root_seen := Std.HashSet.mem_insert_self
  leads n hn := by
    obtain rfl : root = n := by simpa [start] using hn
    exact .root
  rank_le n hn := (List.not_mem_nil hn).elim
  closed n hn := (List.not_mem_nil hn).elim
  found_iff w := by simp [start]
  below := by
    refine ⟨.nil, fun w => ⟨fun hw => (List.not_mem_nil hw).elim, ?_⟩⟩
    rintro ⟨⟨n, hleads, hword⟩, hlt⟩
    have hle := hleads.rank_root_le hranked
    rw [hranked.length_eq n w hword] at hlt
    exact (Nat.not_lt.2 hle hlt).elim
  room := hpos

/-- A step that is not the last one keeps what holds on the way and uses up some of the bound. -/
theorem Invariant.step (h : Invariant graph rank requested longest root followed s) (hranked : graph.Ranked rank)
    (hranks : ∀ node, s.front.head? = some node → ∀ e ∈ graph.successors (rank node) node, e.1 = rank e.2)
    (hs : s.step graph requested longest bound = .inr s') :
    ∃ followed', Invariant graph rank requested longest root followed' s' ∧ s'.weight bound < s.weight bound := by
  have hstepped := stepped graph requested longest bound s
  rw [hs] at hstepped
  cases hstepped with
  | follow hfront henter => exact ⟨_, h.follow hranked hfront (hranks _ (by rw [hfront]; rfl)) henter⟩
  | turn hfront hback => exact ⟨followed, h.turned hfront, weight_turned_lt bound hfront hback⟩
  | next hfront hback hlater hroom =>
      have hne := (buckets_cons.1 (hlater ▸ h.sorted.later)).2.1
      exact ⟨followed, h.opened hranked hfront hback hlater hroom, weight_opened_lt bound hfront hback hlater hne⟩

omit [LawfulBEq ν] in
/-- The last step returns what is claimed of sampling. -/
theorem Invariant.last (h : Invariant graph rank requested longest root followed s) (hranked : graph.Ranked rank)
    {r : Words} (hr : s.step graph requested longest bound = .inl r) :
    graph.Returns rank requested longest root r := by
  have hstepped := stepped graph requested longest bound s
  rw [hr] at hstepped
  cases hstepped with
  | give_up hfront henter => exact h.give_up hranked hfront henter
  | close hfront hback hend => exact h.closed_last hranked hfront hback hend

/-- Where the edges tell the ranks, nothing is lost on the way. -/
theorem exists_invariant (hranked : graph.Ranked rank) (hpos : 0 < requested)
    (hranks : ∀ node, graph.Leads rank longest root node →
      ∀ e ∈ graph.successors (rank node) node, e.1 = rank e.2)
    (h : Passes graph requested longest bound (.start (rank root) root) s) :
    ∃ followed, Invariant graph rank requested longest root followed s := by
  induction h with
  | start => exact ⟨[], invariant_start hranked hpos⟩
  | step _ hs ih =>
      obtain ⟨followed, h⟩ := ih
      obtain ⟨followed', h', _⟩ := h.step hranked (fun node hnode => hranks node (h.head hnode).2) hs
      exact ⟨followed', h'⟩

/-- What is followed then is something that the graph leads to. -/
theorem leads_of_follows (hranked : graph.Ranked rank) (hpos : 0 < requested)
    (hranks : ∀ node, graph.Leads rank longest root node →
      ∀ e ∈ graph.successors (rank node) node, e.1 = rank e.2)
    (h : Follows graph requested longest bound (.start (rank root) root) node) :
    graph.Leads rank longest root node := by
  obtain ⟨s, s', hpasses, _, hnode⟩ := h
  obtain ⟨followed, hinvariant⟩ := exists_invariant hranked hpos hranks hpasses
  exact (hinvariant.head hnode).2

/-- The limit is not reached. -/
theorem Invariant.runFor (hranked : graph.Ranked rank) {start : Sampling ν}
    (hranks : ∀ node, Follows graph requested longest bound start node →
      ∀ e ∈ graph.successors (rank node) node, e.1 = rank e.2)
    {limit : Nat} (h : Invariant graph rank requested longest root followed s)
    (hpasses : Passes graph requested longest bound start s) (hlimit : s.weight bound < limit) :
    graph.Returns rank requested longest root (s.runFor graph requested longest bound limit) := by
  induction limit generalizing followed s with
  | zero => exact (Nat.not_lt_zero _ hlimit).elim
  | succ limit ih =>
      rw [Sampling.runFor]
      cases hs : s.step graph requested longest bound with
      | inl r => exact h.last hranked hs
      | inr s' =>
          obtain ⟨followed', h', hlt⟩ := h.step hranked (fun node hnode => hranks node ⟨s, s', hpasses, hs, hnode⟩) hs
          exact ih h' (hpasses.step hs) (by omega)

end Sampling

/-- Sampling returns the first words that are offered, or as many as it has found when the bound is reached. -/
theorem WordGraph.Ranked.returns_sample {ν : Type} [BEq ν] [Hashable ν] [LawfulBEq ν] {graph : WordGraph ν}
    {rank : ν → Nat} {requested longest bound : Nat} {root : ν} (hranked : graph.Ranked rank) (hpos : 0 < requested)
    (hranks : ∀ node, Sampling.Follows graph requested longest bound (.start (rank root) root) node →
      ∀ e ∈ graph.successors (rank node) node, e.1 = rank e.2) :
    graph.Returns rank requested longest root (graph.sample requested longest bound (rank root) root) := by
  refine (Sampling.invariant_start hranked hpos).runFor hranked hranks .start ?_
  simp only [Sampling.weight, Sampling.start, List.length_cons, List.length_nil, List.flatMap_nil]
  omega

end LanguageTheory
