import Mathlib.Data.List.Nodup
import Mathlib.Data.List.Perm.Basic
import Mathlib.Data.Nat.ModEq
import Mathlib.Logic.Function.Basic
import SimRelay.PayloadKey

/-!
# Proofs/Store/Keys — when two keys are the same

A key can be read back in one way only: whatever dashes and digits the client's name has, the first
dash ends the time and the last begins the counter (`KeySource.key_eq_key_iff`).

A key is drawn in two stages.  The counter moves on while its lock is held; the clock is read after
that, so the times of two draws need not be in the order of their counters.  A `Keyring` has any
number of sources and any number of draws between the two stages.  A draw has the number that its
source gave it when it took the lock, and no other draw of that source has it
(`Keyring.Orderly.single`); its counter is that number, reduced (`Keyring.Draw.Due`).
-/

namespace SimRelay

/-! ## Reading a key back -/

namespace KeySource

/-- What stands before the first separator of two equal rows is the same, and so is what follows. -/
theorem eq_of_append_cons {α : Type} {sep : α} : ∀ {front front' back back' : List α},
    sep ∉ front → sep ∉ front' → front ++ sep :: back = front' ++ sep :: back' →
      front = front' ∧ back = back'
  | [], [], _, _, _, _, h => ⟨rfl, (List.cons.inj h).2⟩
  | [], x :: _, _, _, _, hfront', h =>
      absurd ((List.cons.inj h).1 ▸ List.mem_cons_self) hfront'
  | x :: _, [], _, _, hfront, _, h =>
      absurd ((List.cons.inj h).1 ▸ List.mem_cons_self) hfront
  | x :: front, x' :: front', _, _, hfront, hfront', h => by
      obtain ⟨rfl, hrest⟩ := List.cons.inj h
      obtain ⟨rfl, hback⟩ := eq_of_append_cons (List.not_mem_of_not_mem_cons hfront)
        (List.not_mem_of_not_mem_cons hfront') hrest
      exact ⟨rfl, hback⟩

/-- …and what stands behind the last one. -/
theorem eq_of_append_cons_last {α : Type} {sep : α} {front front' back back' : List α}
    (hback : sep ∉ back) (hback' : sep ∉ back')
    (h : front ++ sep :: back = front' ++ sep :: back') : front = front' ∧ back = back' := by
  have hreverse : back.reverse ++ sep :: front.reverse
      = back'.reverse ++ sep :: front'.reverse := by
    simpa using congrArg List.reverse h
  obtain ⟨hb, hf⟩ := eq_of_append_cons (mt List.mem_reverse.mp hback)
    (mt List.mem_reverse.mp hback') hreverse
  exact ⟨List.reverse_injective hf, List.reverse_injective hb⟩

/-- A numeral has no dash. -/
theorem dash_notMem_numeral (n : Nat) : '-' ∉ (toString n).toList := by
  intro h
  rw [Nat.toString_eq_repr, Nat.toList_repr] at h
  exact absurd (Nat.isDigit_of_mem_toDigits (by decide) (by decide) h) (by decide)

theorem numeral_injective {m n : Nat} (h : (toString m).toList = (toString n).toList) :
    m = n := by
  rw [Nat.toString_eq_repr, Nat.toString_eq_repr, Nat.toList_repr, Nat.toList_repr] at h
  -- the digits are read back
  have hread := congrArg (Nat.ofDigitChars 10 · 0) h
  simpa only [Nat.ofDigitChars_ten_toDigits] using hread

theorem toList_key (millis : Nat) (clientId : String) (counter : Nat) :
    (key millis clientId counter).toList
      = (toString (millis % millisLimit)).toList
        ++ '-' :: (clientId.toList ++ '-' :: (toString counter).toList) := by
  simp [key]

/-- **Two keys are the same exactly if their parts are**: the time as far as it is kept, the client
and the counter. -/
theorem key_eq_key_iff {millis millis' : Nat} {clientId clientId' : String}
    {counter counter' : Nat} :
    key millis clientId counter = key millis' clientId' counter' ↔
      millis ≡ millis' [MOD millisLimit] ∧ clientId = clientId' ∧ counter = counter' := by
  constructor
  · intro h
    have hlist := congrArg String.toList h
    rw [toList_key, toList_key] at hlist
    obtain ⟨htime, hrest⟩ :=
      eq_of_append_cons (dash_notMem_numeral _) (dash_notMem_numeral _) hlist
    obtain ⟨hclient, hcounter⟩ :=
      eq_of_append_cons_last (dash_notMem_numeral _) (dash_notMem_numeral _) hrest
    exact ⟨numeral_injective htime, String.toList_inj.mp hclient, numeral_injective hcounter⟩
  · rintro ⟨htime, rfl, rfl⟩
    have htime : millis % millisLimit = millis' % millisLimit := htime
    rw [key, key, htime]

/-! ## Keys in a row -/

theorem take_snd : ∀ (times : List Nat) (s : KeySource),
    (s.take times).2.clientId = s.clientId ∧
      (s.take times).2.counter ≡ s.counter + times.length [MOD counterLimit]
  | [], s => ⟨rfl, .rfl⟩
  | _ :: later, s => by
      obtain ⟨hclient, hcounter⟩ := take_snd later (s.skip 1)
      refine ⟨hclient, hcounter.trans ?_⟩
      have hfirst : (s.skip 1).counter ≡ s.counter + 1 [MOD counterLimit] := Nat.mod_modEq _ _
      refine (hfirst.add_right later.length).trans ?_
      rw [List.length_cons, Nat.add_assoc, Nat.add_comm 1]

theorem exists_of_mem_take : ∀ {times : List Nat} {s : KeySource} {k : String},
    k ∈ (s.take times).1 → ∃ n < times.length, ∃ millis,
      k = key millis s.clientId ((s.counter + (n + 1)) % counterLimit)
  | millis :: later, s, k, h => by
      rcases List.mem_cons.mp h with rfl | h
      · exact ⟨0, Nat.succ_pos _, millis, rfl⟩
      · obtain ⟨n, hn, millis', rfl⟩ := exists_of_mem_take h
        refine ⟨n + 1, Nat.succ_lt_succ hn, millis', congrArg _ ?_⟩
        change ((s.counter + 1) % counterLimit + (n + 1)) % counterLimit = _
        rw [Nat.mod_add_mod, Nat.add_assoc, Nat.add_comm 1]

/-- The key has been given out: by a source of another name, or by this one as one of its last
`2 ^ 20 - 1`. -/
inductive Spent (s : KeySource) : String → Prop
  | other (millis : Nat) {clientId : String} (counter : Nat) (hother : clientId ≠ s.clientId) :
      Spent s (key millis clientId counter)
  | own {before : KeySource} {times : List Nat} {k : String} (hdrawn : (before.take times).2 = s)
      (hrecent : times.length < counterLimit) (hgiven : k ∈ (before.take times).1) : Spent s k

/-- **The next key is a new one.** -/
theorem Spent.ne_next {s : KeySource} {k : String} (h : s.Spent k) (millis : Nat) :
    k ≠ (s.next millis).1 := by
  intro heq
  cases h with
  | other millis' counter hother => exact hother (key_eq_key_iff.mp heq).2.1
  | @own before times _ hdrawn hrecent hgiven =>
    obtain ⟨n, hn, millis', rfl⟩ := exists_of_mem_take hgiven
    obtain ⟨-, hcounter⟩ := hdrawn ▸ take_snd times before
    have hnext : before.counter + (n + 1) ≡ s.counter + 1 [MOD counterLimit] :=
      (key_eq_key_iff.mp heq).2.2
    -- the counters of fewer draws than there are counters differ
    have hsame : n ≡ times.length [MOD counterLimit] := by
      have hrow := hnext.trans (hcounter.add_right 1)
      rw [Nat.add_assoc] at hrow
      exact Nat.ModEq.add_right_cancel' 1 (Nat.ModEq.add_left_cancel' _ hrow)
    exact Nat.ne_of_lt hn (hsame.eq_of_lt_of_lt (hn.trans hrecent) hrecent)

end KeySource

/-! ## Sources that are drawn from at once -/

variable {ι : Type} [DecidableEq ι]

namespace Keyring

/-- A draw that has taken its counter and has not read the clock. -/
structure Draw (ι : Type) where
  source : ι
  /-- Which of its source's draws it is, counted from one. -/
  number : Nat
  counter : Nat

/-- A draw that is done. -/
structure Issue (ι : Type) where
  source : ι
  number : Nat
  /-- The time that was read. -/
  millis : Nat
  key : String
  deriving DecidableEq

inductive Event (ι : Type)
  /-- A draw takes its source's lock, moves the counter on and lets the lock go. -/
  | locks (source : ι)
  /-- One of the draws that are under way reads the clock and makes its key. -/
  | stamps (n : Nat) (millis : Nat)

end Keyring

/-- Sources of keys, and the draws from them. -/
structure Keyring (ι : Type) where
  sources : ι → KeySource
  /-- How many draws have taken a source's lock. -/
  locked : ι → Nat := fun _ => 0
  underWay : List (Keyring.Draw ι) := []
  issued : List (Keyring.Issue ι) := []

namespace Keyring

/-- Sources that nothing has been drawn from, one for each name. -/
def start (names : ι → String) : Keyring ι := { sources := fun i => { clientId := names i } }

def step (w : Keyring ι) : Event ι → Keyring ι
  | .locks i =>
    let source := (w.sources i).skip 1
    let number := w.locked i + 1
    { w with
      sources := Function.update w.sources i source
      locked := Function.update w.locked i number
      underWay := w.underWay ++ [⟨i, number, source.counter⟩] }
  | .stamps n millis => match w.underWay[n]? with
    | none => w
    | some d => { w with
        underWay := w.underWay.eraseIdx n
        issued := w.issued ++ [⟨d.source, d.number, millis,
          KeySource.key millis (w.sources d.source).clientId d.counter⟩] }

/-- A whole history. -/
def run (w : Keyring ι) (es : List (Event ι)) : Keyring ι := es.foldl step w

/-- **A draw whose stages follow each other** is the next key of its source. -/
theorem stamps_locks (w : Keyring ι) (i : ι) (millis : Nat) :
    ((w.step (.locks i)).step (.stamps w.underWay.length millis)).issued.getLast?.map Issue.key
        = some ((w.sources i).next millis).1 ∧
      ((w.step (.locks i)).step (.stamps w.underWay.length millis)).sources i
        = ((w.sources i).next millis).2 := by
  simp [step, KeySource.next, KeySource.skip]

/-! ## Numbers -/

/-- What a draw has from its source: the number's remainder as its counter. -/
structure Draw.Due (locked : ι → Nat) (d : Draw ι) : Prop where
  counter : d.counter = d.number % KeySource.counterLimit
  counted : 0 < d.number ∧ d.number ≤ locked d.source

/-- The key that is due to a draw of this number at this time. -/
structure Issue.Due (names : ι → String) (locked : ι → Nat) (k : Issue ι) : Prop where
  key : k.key = KeySource.key k.millis (names k.source) (k.number % KeySource.counterLimit)
  counted : 0 < k.number ∧ k.number ≤ locked k.source

/-- Whose draws took the lock, and as which of that source: those that are done, then those under
way. -/
def numbers (w : Keyring ι) : List (ι × Nat) :=
  w.issued.map (fun k => (k.source, k.number)) ++ w.underWay.map fun d => (d.source, d.number)

/-- Each source has counted its draws, and each draw has its number for itself. -/
structure Orderly (names : ι → String) (w : Keyring ι) : Prop where
  sources : ∀ i, w.sources i = ⟨names i, w.locked i % KeySource.counterLimit⟩
  underWay : ∀ d ∈ w.underWay, d.Due w.locked
  issued : ∀ k ∈ w.issued, k.Due names w.locked
  single : w.numbers.Nodup

namespace Orderly

variable {names : ι → String} {w : Keyring ι}

omit [DecidableEq ι] in
theorem start (names : ι → String) : (start names).Orderly names where
  sources _ := rfl
  underWay _ h := absurd h List.not_mem_nil
  issued _ h := absurd h List.not_mem_nil
  single := .nil

omit [DecidableEq ι] in
theorem le_locked (h : w.Orderly names) {p : ι × Nat} (hp : p ∈ w.numbers) :
    p.2 ≤ w.locked p.1 := by
  rcases List.mem_append.mp hp with hp | hp
  · obtain ⟨k, hk, rfl⟩ := List.mem_map.mp hp
    exact (h.issued k hk).counted.2
  · obtain ⟨d, hd, rfl⟩ := List.mem_map.mp hp
    exact (h.underWay d hd).counted.2

/-- **A draw that takes the lock** has a number that is above all before it. -/
theorem locks (h : w.Orderly names) (i : ι) : (w.step (.locks i)).Orderly names := by
  have hle (j : ι) : w.locked j ≤ Function.update w.locked i (w.locked i + 1) j := by
    rw [Function.update_apply]
    split
    · next hj => exact hj ▸ Nat.le_succ _
    · exact Nat.le_refl _
  have hcounter : ((w.sources i).skip 1).counter
      = (w.locked i + 1) % KeySource.counterLimit := by
    rw [h.sources i]
    exact Nat.mod_add_mod ..
  refine ⟨fun j => ?_, List.forall_mem_append.mpr ⟨fun d hd => ?_, fun d hd => ?_⟩,
    fun k hk => ?_, ?_⟩
  · simp only [step, Function.update_apply]
    split
    · next hj =>
      have hname : ((w.sources i).skip 1).clientId = names i :=
        congrArg KeySource.clientId (h.sources i)
      rw [hj, ← hname, ← hcounter]
    · exact h.sources j
  · obtain ⟨hcounter, hpos, hbound⟩ := h.underWay d hd
    exact ⟨hcounter, hpos, hbound.trans (hle _)⟩
  · obtain rfl := List.mem_singleton.mp hd
    exact ⟨hcounter, Nat.succ_pos _, by simp [step]⟩
  · obtain ⟨hkey, hpos, hbound⟩ := h.issued k hk
    exact ⟨hkey, hpos, hbound.trans (hle _)⟩
  · have hnumbers : (w.step (.locks i)).numbers = w.numbers ++ [(i, w.locked i + 1)] := by
      simp [numbers, step]
    rw [hnumbers, List.nodup_append]
    refine ⟨h.single, List.nodup_singleton _, ?_⟩
    rintro p hp _ hlast rfl
    obtain rfl := List.mem_singleton.mp hlast
    exact absurd (h.le_locked hp) (Nat.not_succ_le_self _)

/-- **A draw that reads the clock** keeps its number and its counter. -/
theorem stamps (h : w.Orderly names) (n millis : Nat) :
    (w.step (.stamps n millis)).Orderly names := by
  rw [Keyring.step]
  split
  · exact h
  · next d hd =>
    have hmem : d ∈ w.underWay := List.mem_of_getElem? hd
    obtain ⟨hn, hget⟩ := List.getElem?_eq_some_iff.mp hd
    refine ⟨h.sources, fun d' hd' => h.underWay d' (List.mem_of_mem_eraseIdx hd'),
      List.forall_mem_append.mpr ⟨h.issued, fun k hk => ?_⟩, ?_⟩
    · obtain rfl := List.mem_singleton.mp hk
      refine ⟨?_, (h.underWay d hmem).counted⟩
      dsimp only
      rw [h.sources, (h.underWay d hmem).counter]
    · -- the draw leaves one list for the other
      have hperm : (w.numbers).Perm (numbers { w with
          underWay := w.underWay.eraseIdx n
          issued := w.issued ++ [⟨d.source, d.number, millis,
            KeySource.key millis (w.sources d.source).clientId d.counter⟩] }) := by
        have hmoved := (List.getElem_cons_eraseIdx_perm hn).symm
        rw [hget] at hmoved
        unfold numbers
        rw [List.map_append, List.append_assoc]
        exact (hmoved.map fun d => (d.source, d.number)).append_left _
      exact hperm.nodup h.single

theorem step (h : w.Orderly names) : ∀ e : Event ι, (w.step e).Orderly names
  | .locks i => h.locks i
  | .stamps n millis => h.stamps n millis

theorem run (h : w.Orderly names) (es : List (Event ι)) : (w.run es).Orderly names := by
  induction es generalizing w with
  | nil => exact h
  | cons e es ih => exact ih (h.step e)

end Orderly

/-! ## Keys -/

/-- **Two keys are the same only if a counter has gone around within one masked millisecond.**  In
every history of sources with distinct names, however draws take the locks and whatever the clock
says to each of them:

* each draw that is done has a number of its source's that no other draw has, and the key of draw
  `n` is that of the time it read, its source's name and the counter `n`, reduced;
* the keys of two draws are the same exactly if they are from one source, their numbers differ by a
  multiple of `2 ^ 20`, and their times differ by a multiple of `2 ^ 41`. -/
theorem same_key_iff (names : ι → String) (hnames : Function.Injective names)
    (es : List (Event ι)) :
    let w := (start names).run es
    (w.issued.map fun k => (k.source, k.number)).Nodup ∧
      (∀ k ∈ w.issued, 0 < k.number ∧ k.number ≤ w.locked k.source ∧
        k.key = KeySource.key k.millis (names k.source) (k.number % 2 ^ 20)) ∧
      ∀ k ∈ w.issued, ∀ k' ∈ w.issued, k.key = k'.key ↔
        k.source = k'.source ∧ k.number ≡ k'.number [MOD 2 ^ 20] ∧
          k.millis ≡ k'.millis [MOD 2 ^ 41] := by
  intro w
  have hw : w.Orderly names := (Orderly.start names).run es
  have hkey (k : Issue ι) (hk : k ∈ w.issued) :
      k.key = KeySource.key k.millis (names k.source) (k.number % 2 ^ 20) := (hw.issued k hk).key
  refine ⟨(List.nodup_append.mp hw.single).1, fun k hk => ?_, fun k hk k' hk' => ?_⟩
  · exact ⟨(hw.issued k hk).counted.1, (hw.issued k hk).counted.2, hkey k hk⟩
  · rw [hkey k hk, hkey k' hk', KeySource.key_eq_key_iff, hnames.eq_iff]
    -- the parts of a key stand in another order than they are compared in
    exact ⟨fun ⟨htime, hsource, hnumber⟩ => ⟨hsource, hnumber, htime⟩,
      fun ⟨hsource, hnumber, htime⟩ => ⟨htime, hsource, hnumber⟩⟩

/-- Two sources, the name of one being a key of the other's but for its time.  The first draws
twice, and reads the clock for the second draw before it does for the first; the clock has jumped
back.  All keys differ, and the times and the names can be told apart in them. -/
theorem same_key_iff_interleaved :
    let names (second : Bool) : String := if second then "1-a-1" else "a"
    let es : List (Event Bool) := [.locks false, .locks true, .locks false, .stamps 2 7,
      .stamps 1 1, .stamps 0 (7 + 2 ^ 41)]
    let w := (start names).run es
    Function.Injective names ∧
      w.issued.map Issue.key = ["7-a-2", "1-1-a-1-1", "7-a-1"] ∧
      ∀ k ∈ w.issued, ∀ k' ∈ w.issued, k.key = k'.key ↔
        k.source = k'.source ∧ k.number ≡ k'.number [MOD 2 ^ 20] ∧
          k.millis ≡ k'.millis [MOD 2 ^ 41] := by
  intro names es w
  have hnames : Function.Injective names := fun a b => by revert a b; decide
  have hissued : w.issued.map Issue.key = ["7-a-2", "1-1-a-1-1", "7-a-1"] := by decide +kernel
  obtain ⟨-, -, hsame⟩ := same_key_iff names hnames es
  exact ⟨hnames, hissued, hsame⟩

end Keyring

end SimRelay
