import SimRelay.Proofs.Link.Closing
import SimRelay.Proofs.Link.Holding
import SimRelay.Proofs.Session.Introducing
import SimRelay.Rehearsal.World

/-!
# Proofs/Session/Greeting — the first answer in time decides, and a failure leaves nothing open

A `Greeting` is a handshake on a new link, with all that the daemon and the writers may do around
it.  Each attempt at hearing the answer is a look at what the daemon has written by then (`Look`),
and the last look decides: the first frame on the control channel, if there is one, or why there is
none (`Handshake.answer`).  The looks before it found nothing and came before the deadline.

What holds of each phase (`Greeting.Stands`) is kept by what goes on around and by each step of the
handshake.  A failure is told only when the link has been closed, and where the writer gets on and
time passes, each turn brings the end nearer (`Handshake.Phase.distance`).
-/

namespace SimRelay

namespace Handshake

/-! ## Looking for the answer -/

/-- What a client finds that looks for the answer. -/
structure Look where
  now : Instant
  /-- What the daemon has written on the control channel. -/
  stream : ByteArray
  /-- How the stream is over, once it is. -/
  ending : Option StreamEnd

/-- The first frame, or why there is none. -/
def Look.offer (k : Look) : Inbox.Offer :=
  .due (Frame.bodies k.stream) (Frame.ending k.stream) k.ending

variable {h : Handshake} {openStore : StoreParams → Except StoreError Unit} {k : Look}
  {looks : List Look} {config : SessionConfig} {fault : InitFault} {body : ByteArray}

/-- What comes of terms: a store that they name has to be there, or to be brought. -/
def furnish (openStore : StoreParams → Except StoreError Unit) (h : Handshake)
    (config : SessionConfig) : Except InitFault SessionConfig :=
  match config.store, h.bringsStore with
  | some store, false => match openStore store with
    | .ok () => .ok config
    | .error e => .error (.store store e)
  | _, _ => .ok config

/-- **What a look decides**, if it is the last. -/
def answer (openStore : StoreParams → Except StoreError Unit) (h : Handshake) (k : Look) :
    Except InitFault SessionConfig :=
  match k.offer with
  | .frame body => match judge body with
    | .ok config => h.furnish openStore config
    | .error fault => .error fault
  | .failure e => .error (.awaiting e)
  | .nothing => .error (.silent h.responseWindow)

/-- The time for the answer, counted from the first look. -/
def deadline? (h : Handshake) (looks : List Look) : Option Instant :=
  looks.head?.map fun first => first.now.timer h.responseWindow

/-- A look that finds nothing while there is time. -/
def Idle (h : Handshake) (looks : List Look) (k : Look) : Prop :=
  k.offer = .nothing ∧ ∀ deadline ∈ h.deadline? looks, ¬ k.now.reached deadline

/-- **This look decided**: those before it were idle, and it found something or was too late to go
on. -/
structure Decided (h : Handshake) (looks : List Look) (k : Look) : Prop where
  last : ∃ before, looks = before ++ [k] ∧ ∀ k' ∈ before, h.Idle looks k'
  late : k.offer = .nothing → ∀ deadline ∈ h.deadline? looks, k.now.reached deadline

/-- What has come of looking, where the handshake fails: nothing was looked for, or the last look
says why. -/
def Failed (openStore : StoreParams → Except StoreError Unit) (h : Handshake) (looks : List Look)
    (fault : InitFault) : Prop :=
  looks = [] ∨ ∃ k, h.Decided looks k ∧ h.answer openStore k = .error fault

/-- The answer accepts the introduction and sets these terms. -/
theorem judge_eq_ok : judge body = .ok config ↔ ∃ m terms, Message.decode body = .ok m ∧
    m.operation = .init ∧ m.resultCode ≠ .failure ∧ m.terms = some terms ∧
    config = .ofTerms terms := by
  unfold judge
  constructor
  · intro hjudge
    split at hjudge
    · cases hjudge
    · next m hm =>
      split at hjudge
      · cases hjudge
      · next hinit =>
        split at hjudge
        · cases hjudge
        · next hcode =>
          split at hjudge
          · cases hjudge
          · next terms hterms =>
            exact ⟨m, terms, hm, Decidable.not_not.mp hinit, hcode, hterms,
              (Except.ok.inj hjudge).symm⟩
  · rintro ⟨m, terms, hm, hinit, hcode, hterms, rfl⟩
    simp only [hm, hinit, ne_eq, not_true_eq_false, if_false, hcode, hterms]

/-- The store that the terms name is there, if it has to be. -/
theorem furnish_eq_ok {terms : Terms} : h.furnish openStore (.ofTerms terms) = .ok config ↔
    config = .ofTerms terms ∧ (terms.useStore → h.bringsStore = false →
      openStore ⟨terms.storeAddress, terms.storePort, terms.storeIndex⟩ = .ok ()) := by
  have hstore : (SessionConfig.ofTerms terms).store = if terms.useStore then
      some ⟨terms.storeAddress, terms.storePort, terms.storeIndex⟩ else none := rfl
  unfold furnish
  rw [hstore]
  cases terms.useStore with
  | false =>
    exact ⟨fun heq => ⟨(Except.ok.inj heq).symm, fun huse => absurd huse Bool.false_ne_true⟩,
      fun ⟨heq, _⟩ => heq ▸ rfl⟩
  | true =>
    cases h.bringsStore with
    | true =>
      exact ⟨fun heq => ⟨(Except.ok.inj heq).symm, fun _ hbrings => absurd hbrings.symm
        Bool.false_ne_true⟩, fun ⟨heq, _⟩ => heq ▸ rfl⟩
    | false =>
      cases hopen : openStore ⟨terms.storeAddress, terms.storePort, terms.storeIndex⟩ with
      | ok _ =>
        rw [if_pos rfl]
        dsimp only
        rw [hopen]
        exact ⟨fun heq => ⟨(Except.ok.inj heq).symm, fun _ _ => rfl⟩, fun ⟨heq, _⟩ => heq ▸ rfl⟩
      | error e =>
        rw [if_pos rfl]
        dsimp only
        rw [hopen]
        refine ⟨fun heq => ?_, fun ⟨_, hok⟩ => ?_⟩
        · cases heq
        · cases hok rfl rfl

/-- **A look decides for a session exactly if the first frame accepts the introduction and sets
terms**, and the store that they name is there. -/
theorem answer_eq_ok : h.answer openStore k = .ok config ↔
    ∃ body m terms, (Frame.bodies k.stream).head? = some body ∧ Message.decode body = .ok m ∧
      m.operation = .init ∧ m.resultCode ≠ .failure ∧ m.terms = some terms ∧
      config = .ofTerms terms ∧ (terms.useStore → h.bringsStore = false →
        openStore ⟨terms.storeAddress, terms.storePort, terms.storeIndex⟩ = .ok ()) := by
  have hbody : k.offer.body? = (Frame.bodies k.stream).head? := Inbox.Offer.body?_due ..
  unfold answer
  cases hoffer : k.offer with
  | failure e | nothing =>
    rw [hoffer] at hbody
    refine ⟨fun heq => ?_, fun ⟨_, _, _, hsome, _⟩ => ?_⟩
    · cases heq
    · exact absurd (hsome.symm.trans hbody.symm) (Option.some_ne_none _)
  | frame body =>
    rw [hoffer] at hbody
    constructor
    · intro heq
      dsimp only at heq
      split at heq
      · next config' hjudge =>
        obtain ⟨m, terms, hm, hinit, hcode, hterms, rfl⟩ := judge_eq_ok.mp hjudge
        obtain ⟨hconfig, hstore⟩ := furnish_eq_ok.mp heq
        exact ⟨body, m, terms, hbody.symm, hm, hinit, hcode, hterms, hconfig, hstore⟩
      · cases heq
    · rintro ⟨body', m, terms, hhead, hm, hinit, hcode, hterms, hconfig, hstore⟩
      obtain rfl : body = body' := Option.some.inj (hbody.trans hhead)
      dsimp only
      rw [judge_eq_ok.mpr ⟨m, terms, hm, hinit, hcode, hterms, rfl⟩]
      exact furnish_eq_ok.mpr ⟨hconfig, hstore⟩

/-- A phase in which the client looks for the answer. -/
def Phase.looksOut : Phase → Bool
  | .introduced => true
  | .listening _ => true
  | _ => false

/-- A phase that comes before an answer. -/
def Phase.early : Phase → Bool
  | .opening _ _ => false
  | .closing _ _ => false
  | _ => true

end Handshake

/-! ## A handshake and what goes on around it -/

/-- A handshake under way on a link, the stream that the daemon has written on the control channel,
and the looks that the client has taken at it. -/
structure Greeting where
  link : Link
  progress : Progress InitFault Handshake.Phase SessionConfig := .goes .start
  stream : ByteArray := .empty
  looks : List Handshake.Look := []

namespace Greeting

/-- What is on its way at first belongs to the stream. -/
def start (l : Link) : Greeting := { link := l, stream := (l.inbox .ctrl).pending }

inductive Event
  /-- The handshake takes a step, unless it has ended. -/
  | turns (now : Instant) (millis : Nat)
  | stirs (x : Stir)

section

variable (h : Handshake) (openStore : StoreParams → Except StoreError Unit) (id : CallId)

/-- One step of the handshake. -/
def turn (t : Turn) (phase : Handshake.Phase) (w : Greeting) : Greeting :=
  let (link, progress) := h.step t openStore phase w.link
  { w with
    link
    progress
    looks := w.looks ++
      if phase.looksOut then [⟨t.now, w.stream, (w.link.inbox .ctrl).ending⟩] else [] }

def step (w : Greeting) : Event → Greeting
  | .turns now millis => w.progress.state?.elim w fun phase =>
    w.turn h openStore ⟨id, now, millis⟩ phase
  | .stirs x =>
    { w with
      link := x.onLink w.link
      stream := w.stream ++ if (w.link.inbox .ctrl).ended then .empty else x.bytes .ctrl }

/-- A whole history. -/
def run (w : Greeting) (es : List Event) : Greeting := es.foldl (step h openStore id) w

end

variable {h : Handshake} {openStore : StoreParams → Except StoreError Unit} {id : CallId}
  {l₀ : Link} {w : Greeting} {t : Turn} {phase : Handshake.Phase} {fault : InitFault}

open Handshake

/-- **What holds in each phase**: nothing has been closed before the handshake has failed, and the
looks so far are those that brought it to the phase. -/
def Stands (h : Handshake) (openStore : StoreParams → Except StoreError Unit) (l₀ : Link)
    (w : Greeting) : Phase → Prop
  | .start | .introduced => l₀.Steady w.link ∧ w.looks = []
  | .introducing x => l₀.Steady w.link ∧ w.looks = [] ∧ ∀ number, x = .handed number → number = 0
  | .listening deadline => l₀.Steady w.link ∧ h.deadline? w.looks = some deadline ∧
      ∀ k ∈ w.looks, h.Idle w.looks k
  | .opening config store => l₀.Steady w.link ∧ config.store = some store ∧ h.bringsStore = false ∧
      ∃ k body, h.Decided w.looks k ∧ k.offer = .frame body ∧ judge body = .ok config
  | .closing c fault => c.Stands w.link ∧ c.distance ≤ Link.Closing.start.distance ∧
      h.Failed openStore w.looks fault

/-- Before an answer has come, all that the daemon has written is still there. -/
def Unread (w : Greeting) : Prop := (w.link.inbox .ctrl).pending = w.stream

/-- **The account of a greeting.** -/
structure Account (h : Handshake) (openStore : StoreParams → Except StoreError Unit) (id : CallId)
    (l₀ : Link) (w : Greeting) : Prop where
  solo : w.link.Solo id
  next : w.progress.Leaves fun phase =>
    w.Stands h openStore l₀ phase ∧ (phase.early → w.Unread)
  done : ∀ config, w.progress = .ends (.ok config) →
    l₀.Steady w.link ∧ ∃ k, h.Decided w.looks k ∧ h.answer openStore k = .ok config
  failed : ∀ fault, w.progress = .ends (.error fault) →
    w.link.Shut ∧ h.Failed openStore w.looks fault

/-- A handshake that goes on has its phase to account for. -/
theorem Account.of_state? (hphase : w.progress.state? = some phase) (hsolo : w.link.Solo id)
    (hstands : w.Stands h openStore l₀ phase) (hunread : phase.early → w.Unread) :
    Account h openStore id l₀ w where
  solo := hsolo
  next := Progress.leaves_of_state? hphase ⟨hstands, hunread⟩
  done config hend := by
    rw [hend] at hphase
    cases hphase
  failed fault hend := by
    rw [hend] at hphase
    cases hphase

/-- A handshake that has succeeded has its answer to account for. -/
theorem Account.of_ok {config : SessionConfig} {k : Look}
    (hend : w.progress = .ends (.ok config)) (hsolo : w.link.Solo id)
    (hsteady : l₀.Steady w.link) (hdecided : h.Decided w.looks k)
    (hanswer : h.answer openStore k = .ok config) : Account h openStore id l₀ w where
  solo := hsolo
  next := hend ▸ trivial
  done config' hend' := by
    obtain rfl := Except.ok.inj (Progress.ends.inj (hend.symm.trans hend'))
    exact ⟨hsteady, k, hdecided, hanswer⟩
  failed fault hend' := by cases hend.symm.trans hend'

theorem Account.start (hlines : ∀ c, (l₀.inbox c).line = []) :
    Account h openStore id l₀ (start l₀) :=
  .of_state? rfl (fun c _ ho => absurd (hlines c ▸ ho) List.not_mem_nil) ⟨.refl l₀, rfl⟩
    fun _ => rfl

/-- What is closed stays closed, and what is open stays open. -/
theorem Stands.steady (hphase : w.Stands h openStore l₀ phase) {l : Link} (hl : w.link.Steady l) :
    Stands h openStore l₀ { w with link := l } phase := by
  cases phase with
  | start | introduced | introducing _ | listening _ | opening _ _ =>
    exact ⟨hphase.1.trans hl, hphase.2⟩
  | closing c fault => exact ⟨hphase.1.steady hl, hphase.2⟩

/-- What goes on around a greeting keeps its account. -/
theorem Account.stirs (hw : w.Account h openStore id l₀) (x : Stir) :
    Account h openStore id l₀ (w.step h openStore id (.stirs x)) where
  solo := hw.solo.onLink x
  next := hw.next.mono fun phase ⟨hstands, hunread⟩ => by
    refine ⟨hstands.steady (Link.steady_onLink x w.link), fun hearly => ?_⟩
    change ((x.onLink w.link).inbox .ctrl).pending = _
    rw [Stir.pending_onLink, hunread hearly]
    rfl
  done config hend := (hw.done config hend).imp_left fun h => h.trans (Link.steady_onLink x w.link)
  failed fault hend :=
    (hw.failed fault hend).imp_left fun h => h.steady (Link.steady_onLink x w.link)

/-- What a step of the handshake leaves behind: this link, this progress, these looks. -/
theorem Account.fails (hsolo : w.link.Solo id) (hsteady : l₀.Steady w.link)
    (hopen : l₀.closing = false) (hfailed : h.Failed openStore w.looks fault) :
    Account h openStore id l₀ { w with progress := fail fault } :=
  .of_state? rfl hsolo ⟨hsteady.closing.trans hopen, Nat.le_refl _, hfailed⟩
    fun hearly => absurd hearly Bool.false_ne_true

/-- What follows the first frame. -/
theorem Account.settles {k : Look} {body : ByteArray} (hsolo : w.link.Solo id)
    (hsteady : l₀.Steady w.link) (hopen : l₀.closing = false) (hdecided : h.Decided w.looks k)
    (hoffer : k.offer = .frame body) :
    Account h openStore id l₀ { w with progress := h.settle body } := by
  have hanswer : h.answer openStore k = match judge body with
      | .ok config => h.furnish openStore config
      | .error fault => .error fault := by rw [answer, hoffer]
  unfold settle
  split
  · next fault hjudge =>
    rw [hjudge] at hanswer
    exact .fails hsolo hsteady hopen (.inr ⟨k, hdecided, hanswer⟩)
  · next config hjudge =>
    rw [hjudge] at hanswer
    split
    · next store hstore hbrings =>
      exact .of_state? rfl hsolo ⟨hsteady, hstore, hbrings, k, body, hdecided, hoffer, hjudge⟩
        fun hearly => absurd hearly Bool.false_ne_true
    · next hnone =>
      refine .of_ok rfl hsolo hsteady hdecided (hanswer.trans ?_)
      dsimp only [furnish]
      split
      · next store hstore hbrings => exact absurd hbrings (hnone store hstore)
      · rfl

/-- **One more look**: it decides, or it is idle like those before it. -/
theorem Account.hears {deadline : Instant} {k : Look} (hsolo : w.link.Solo t.id)
    (hsteady : l₀.Steady w.link) (hopen : l₀.closing = false) (hunread : w.Unread)
    (hk : k = ⟨t.now, w.stream, (w.link.inbox .ctrl).ending⟩)
    (hdeadline : h.deadline? (w.looks ++ [k]) = some deadline)
    (hidle : ∀ k' ∈ w.looks, h.Idle (w.looks ++ [k]) k') :
    Account h openStore t.id l₀
      { w with
        link := (h.hear t deadline w.link).1
        progress := (h.hear t deadline w.link).2
        looks := w.looks ++ [k] } := by
  obtain ⟨i, hread, hhanded, halone, -⟩ :=
    Link.read_alone (hsteady.closing.trans hopen) (hsolo .ctrl) (t.now.reached deadline)
  have hprospect : (w.link.inbox .ctrl).prospect = k.offer := by
    rw [Inbox.prospect, hunread, hk, Look.offer]
  rw [hprospect] at hread hhanded
  have hsolo' : (w.link.setInbox .ctrl i).Solo t.id := hsolo.setInbox halone
  have hsteady' := hsteady.trans (Link.steady_setInbox .ctrl i w.link)
  have hdecided (hlate : k.offer = .nothing → t.now.reached deadline) :
      h.Decided (w.looks ++ [k]) k := by
    refine ⟨⟨w.looks, rfl, hidle⟩, fun hnone d hd => ?_⟩
    obtain rfl := Option.some.inj (hdeadline.symm.trans hd)
    rw [hk]
    exact hlate hnone
  have hfails {fault : InitFault} (hlate : k.offer = .nothing → t.now.reached deadline)
      (hanswer : h.answer openStore k = .error fault) :
      Account h openStore t.id l₀ { w with
        link := w.link.setInbox .ctrl i, progress := fail fault, looks := w.looks ++ [k] } :=
    .fails (w := { w with link := w.link.setInbox .ctrl i, looks := w.looks ++ [k] }) hsolo'
      hsteady' hopen (.inr ⟨k, hdecided hlate, hanswer⟩)
  unfold hear
  rw [hread]
  cases hoffer : k.offer with
  | frame body =>
    have hnone : k.offer ≠ .nothing := fun hnothing => by cases hoffer.symm.trans hnothing
    exact .settles (w := { w with link := w.link.setInbox .ctrl i, looks := w.looks ++ [k] })
      hsolo' hsteady' hopen (hdecided fun h => absurd h hnone) hoffer
  | failure e =>
    have hnone : k.offer ≠ .nothing := fun hnothing => by cases hoffer.symm.trans hnothing
    exact hfails (fun h => absurd h hnone) (by rw [answer, hoffer])
  | nothing =>
    rw [Link.Reading.of]
    cases hexpired : t.now.reached deadline with
    | true => exact hfails (fun _ => hexpired) (by rw [answer, hoffer])
    | false =>
      rw [hoffer] at hhanded
      refine .of_state? rfl hsolo' ⟨hsteady', hdeadline, ?_⟩ fun _ => ?_
      · refine List.forall_mem_append.mpr ⟨hidle, fun k' hk' => ?_⟩
        obtain rfl := List.mem_singleton.mp hk'
        refine ⟨hoffer, fun d hd => ?_⟩
        obtain rfl := Option.some.inj (hdeadline.symm.trans hd)
        rw [hk]
        exact Bool.eq_false_iff.mp hexpired
      · change ((w.link.setInbox .ctrl i).inbox .ctrl).pending = _
        rw [Link.inbox_setInbox, if_pos rfl]
        exact hhanded.pending_of_none.trans hunread

theorem turn_eq (hlooks : phase.looksOut = false) (t : Turn) (w : Greeting) :
    w.turn h openStore t phase = { w with
      link := (h.step t openStore phase w.link).1
      progress := (h.step t openStore phase w.link).2 } := by
  rw [turn, hlooks]
  dsimp only
  rw [if_neg Bool.false_ne_true, List.append_nil]

/-- Nothing has been handed over before the introduction, so that it has the first number. -/
theorem write_number {l : Link} {x : Link.Writing} {m : Message}
    (hopens : l.Opens (if x.pends then [] else [m]))
    (hnumber : ∀ number, x = .handed number → number = 0) :
    (l.write id .ctrl x).2.Leaves fun x' => ∀ number, x' = .handed number → number = 0 := by
  unfold Link.write
  cases x with
  | start body =>
    dsimp only
    split
    · exact trivial
    · split
      · exact trivial
      · split
        · exact trivial
        · exact nofun
  | queueing frame =>
    dsimp only
    split
    · exact trivial
    · next hstopped =>
      have hgoing := Option.not_isSome_iff_eq_none.mp hstopped
      split
      · next number o hoffer =>
        obtain ⟨hfirst, -, -⟩ := (hopens .ctrl).holds.offer hgoing hoffer
        exact fun number' heq => Link.Writing.handed.inj heq ▸ hfirst
      · exact nofun
  | handed number =>
    dsimp only
    split
    · exact trivial
    · exact trivial
    · exact fun number' heq => Link.Writing.handed.inj heq ▸ hnumber number rfl

/-- A step of sending the introduction. -/
theorem Account.introduces {x : Link.Writing} {m : Message} (hsolo : w.link.Solo t.id)
    (hopen : l₀.closing = false) (hstands : w.Stands h openStore l₀ (.introducing x))
    (hunread : w.Unread) (hspoken : (Phase.introducing x).Says h m w.link) :
    Account h openStore t.id l₀ (w.turn h openStore t (.introducing x)) := by
  obtain ⟨hsteady, hlooks, hnumber⟩ := hstands
  rw [turn_eq rfl]
  have hsteady' := hsteady.trans (Link.steady_write t.id .ctrl x w.link)
  have hsolo' : (w.link.write t.id .ctrl x).1.Solo t.id := hsolo.write .ctrl x
  have hunread' : ((w.link.write t.id .ctrl x).1.inbox .ctrl).pending = w.stream := by
    obtain ⟨o, ho⟩ := Link.write_spec t.id .ctrl x w.link
    rw [ho, Link.inbox_setOutbox]
    exact hunread
  have hnumber' : (w.link.write t.id .ctrl x).2.Leaves fun x' =>
      ∀ number, x' = .handed number → number = 0 :=
    write_number hspoken.2 hnumber
  rw [Handshake.step]
  dsimp only
  generalize w.link.write t.id .ctrl x = r at hsteady' hsolo' hunread' hnumber'
  obtain ⟨l, progress⟩ := r
  cases progress with
  | waits x' | goes x' =>
    exact .of_state? rfl hsolo' ⟨hsteady', hlooks, hnumber'⟩ fun _ => hunread'
  | ends result =>
    cases result with
    | ok _ => exact .of_state? rfl hsolo' ⟨hsteady', hlooks⟩ fun _ => hunread'
    | error e => exact .fails (w := { w with link := l }) hsolo' hsteady' hopen (.inl hlooks)

/-- A step of closing after a failure. -/
theorem Account.closes {c : Link.Closing} (hsolo : w.link.Solo t.id)
    (hstands : w.Stands h openStore l₀ (.closing c fault)) :
    Account h openStore t.id l₀ (w.turn h openStore t (.closing c fault)) := by
  obtain ⟨hclosing, hle, hfailed⟩ := hstands
  obtain ⟨hnext, hshut⟩ := Link.close_stands hclosing t.id
  obtain ⟨hsolo', hend⟩ := Link.close_alone hsolo c
  rw [turn_eq rfl, Handshake.step]
  dsimp only
  generalize w.link.close t.id c = r at hnext hshut hsolo' hend
  obtain ⟨l, progress⟩ := r
  rcases hend with ⟨result, rfl⟩ | ⟨c', rfl, hlt⟩
  · cases result with
    | ok _ =>
      refine ⟨hsolo', trivial, fun config hend => ?_, fun fault' hend => ?_⟩
      · cases hend
      · obtain rfl := Except.error.inj (Progress.ends.inj hend)
        exact ⟨hshut _ rfl, hfailed⟩
    | error e => exact e.elim
  · exact .of_state? rfl hsolo' ⟨hnext, Nat.le_trans (Nat.le_of_lt hlt) hle, hfailed⟩
      fun hearly => absurd hearly Bool.false_ne_true

/-- **A step of the handshake keeps the account.** -/
theorem Account.turn {m : Message} (hw : w.Account h openStore t.id l₀)
    (hopen : l₀.closing = false) (hphase : w.progress.state? = some phase)
    (hspoken : phase.Says h m w.link) :
    Account h openStore t.id l₀ (w.turn h openStore t phase) := by
  obtain ⟨hstands, hunread⟩ := hw.next.of_state? hphase
  cases phase with
  | start =>
    obtain ⟨hsteady, hlooks⟩ := hstands
    rw [turn_eq rfl, Handshake.step]
    split
    · exact .fails hw.solo hsteady hopen (.inl hlooks)
    · refine .of_state? rfl hw.solo ⟨hsteady, hlooks, fun number hnumber => ?_⟩ hunread
      cases hnumber
  | introducing x => exact .introduces hw.solo hopen hstands (hunread rfl) hspoken
  | introduced =>
    obtain ⟨hsteady, hlooks⟩ := hstands
    refine .hears hw.solo hsteady hopen (hunread rfl) rfl ?_ ?_
    · rw [hlooks]
      rfl
    · rw [hlooks]
      exact fun k hk => absurd hk List.not_mem_nil
  | listening deadline =>
    obtain ⟨hsteady, hdeadline, hidle⟩ := hstands
    have hsame (k : Look) : h.deadline? (w.looks ++ [k]) = h.deadline? w.looks := by
      obtain ⟨first, hfirst, -⟩ := Option.map_eq_some_iff.mp hdeadline
      rw [deadline?, deadline?, List.head?_append, hfirst, Option.some_or]
    refine .hears hw.solo hsteady hopen (hunread rfl) rfl ((hsame _).trans hdeadline) ?_
    intro k hk
    rw [Idle, hsame]
    exact hidle k hk
  | opening config store =>
    obtain ⟨hsteady, hstore, hbrings, k, body, hdecided, hoffer, hjudge⟩ := hstands
    have hanswer : h.answer openStore k = h.furnish openStore config := by
      rw [answer, hoffer]
      dsimp only
      rw [hjudge]
    have hfurnish : h.furnish openStore config = match openStore store with
        | .ok () => .ok config
        | .error e => .error (.store store e) := by rw [furnish, hstore, hbrings]
    rw [turn_eq rfl, Handshake.step]
    split
    · next hok =>
      rw [hok] at hfurnish
      exact .of_ok rfl hw.solo hsteady hdecided (hanswer.trans hfurnish)
    · next e herror =>
      rw [herror] at hfurnish
      exact .fails hw.solo hsteady hopen (.inr ⟨k, hdecided, hanswer.trans hfurnish⟩)
  | closing c fault => exact .closes hw.solo hstands

/-! ## Whole histories -/

/-- What the client says of itself. -/
def hello (h : Handshake) (l : Link) : Message := .init h.role.originator (h.intro l)

/-- **A greeting that has come this far** has kept its account, and has said one thing. -/
structure Follows (h : Handshake) (openStore : StoreParams → Except StoreError Unit) (id : CallId)
    (l₀ : Link) (w : Greeting) : Prop where
  account : w.Account h openStore id l₀
  said : Said h (hello h l₀) (w.link, w.progress)

theorem Follows.start (hlines : ∀ c, (l₀.inbox c).line = []) (hnew : ∀ c, l₀.outbox c = {}) :
    Follows h openStore id l₀ (start l₀) where
  account := .start hlines
  said := .of_next ⟨rfl, .of_new hnew⟩

theorem Follows.step (hopen : l₀.closing = false) (hw : w.Follows h openStore id l₀) (e : Event) :
    Follows h openStore id l₀ (w.step h openStore id e) := by
  cases e with
  | turns now millis =>
    rw [Greeting.step]
    cases hphase : w.progress.state? with
    | none => exact hw
    | some phase =>
      have hspoken : phase.Says h _ w.link := hw.said.next.of_state? hphase
      exact ⟨hw.account.turn (t := ⟨id, now, millis⟩) hopen hphase hspoken,
        step_said openStore hspoken⟩
  | stirs x =>
    have hretains := x.retains_onLink w.link
    refine ⟨hw.account.stirs x, ?_, fun config hend => ?_, fun fault hend => ?_⟩
    · exact hw.said.next.mono fun phase hspoken => hspoken.retains hretains (intro_onLink h x w.link)
    · exact (hw.said.done config hend).imp (·.retains hretains) hretains.begins
    · exact (hw.said.failed fault hend).imp (·.retains hretains) (·.retains hretains)

theorem Follows.run (hopen : l₀.closing = false) (hw : w.Follows h openStore id l₀)
    (es : List Event) : Follows h openStore id l₀ (w.run h openStore id es) := by
  induction es generalizing w with
  | nil => exact hw
  | cons e es ih => exact ih (hw.step hopen e)

end Greeting

namespace Handshake

/-! ## Coming to an end -/

/-- How many turns a handshake takes at most from a phase on, where the writer writes and the answer
comes or the time is up. -/
def Phase.distance : Phase → Nat
  | .start => 12
  | .introducing (.start _) => 11
  | .introducing (.queueing _) => 10
  | .introducing (.handed _) => 9
  | .introduced => 8
  | .listening _ => 7
  | .opening _ _ => 6
  | .closing c _ => c.distance

theorem Phase.distance_pos (phase : Phase) : 0 < phase.distance := by
  unfold distance
  split
  · decide
  · decide
  · decide
  · decide
  · decide
  · decide
  · decide
  · unfold Link.Closing.distance
    split
    · decide
    · exact Nat.succ_pos _

theorem Phase.le_distance_introducing (x : Link.Writing) :
    6 ≤ (Phase.introducing x).distance := by
  cases x with
  | start body => exact Nat.le_of_ble_eq_true rfl
  | queueing frame => exact Nat.le_of_ble_eq_true rfl
  | handed number => exact Nat.le_of_ble_eq_true rfl

/-- A phase that does not wait for the daemon any more, and is nearer than this. -/
def Phase.Within (n : Nat) (phase : Phase) : Prop := phase.distance < n ∧ alarm? phase = none

theorem Phase.Within.mono {n n' : Nat} (hn : n ≤ n') {phase : Phase} (hphase : phase.Within n) :
    phase.Within n' := ⟨Nat.lt_of_lt_of_le hphase.1 hn, hphase.2⟩

theorem within_fail (fault : InitFault) : (fail fault).Leaves (Phase.Within 6) :=
  ⟨Nat.lt_succ_self 5, rfl⟩

theorem within_settle (h : Handshake) (body : ByteArray) :
    (h.settle body).Leaves (Phase.Within 7) := by
  unfold settle
  split
  · exact (within_fail _).mono fun _ hphase => hphase.mono (by decide)
  · split
    · exact ⟨Nat.lt_succ_self 6, rfl⟩
    · exact trivial

/-- **A look that comes late enough is the last.** -/
theorem within_hear {t : Turn} {l : Link} (hopen : l.closing = false) (hsolo : l.Solo t.id)
    (h : Handshake) (deadline : Instant) :
    (h.hear t deadline l).2.Leaves fun phase => phase.Within 7 ∨
      phase = .listening deadline ∧ t.now.reached deadline = false := by
  obtain ⟨i, hread, -⟩ := Link.read_alone hopen (hsolo .ctrl) (t.now.reached deadline)
  unfold hear
  rw [hread]
  have hfail {fault : InitFault} : (fail fault).Leaves fun phase => phase.Within 7 ∨
      phase = .listening deadline ∧ t.now.reached deadline = false :=
    (within_fail fault).mono fun _ hphase => .inl (hphase.mono (by decide))
  cases (l.inbox .ctrl).prospect with
  | frame body => exact (h.within_settle body).mono fun _ hphase => .inl hphase
  | failure e => exact hfail
  | nothing =>
    cases hexpired : t.now.reached deadline with
    | true => exact (within_fail _).mono fun _ hphase => .inl (hphase.mono (by decide))
    | false => exact .inr ⟨rfl, rfl⟩

end Handshake

namespace Greeting

variable {h : Handshake} {openStore : StoreParams → Except StoreError Unit} {id : CallId}
  {l₀ : Link} {w : Greeting} {t : Turn} {phase : Handshake.Phase} {fault : InitFault}

open Handshake

/-- What is waited for from this event on is due by now. -/
def Event.Due (window : Duration) (now : Instant) : Event → Prop
  | .turns since _ => now.reached (since.timer window)
  | .stirs _ => True

/-- **The handshake is attended to** in so many rounds, whatever else goes on in them.  In a round
the writer writes everything that was handed over, and later the handshake has a turn at an instant
by which everything is due that it may wait for: what it waits for when the round begins, and a
response window from each of its turns since. -/
inductive Attends (window : Duration) : Instant → Nat → List Event → Prop
  | rests (due : Instant) (es : List Event) : Attends window due 0 es
  | round (due now : Instant) (millis n : Nat) (before between rest : List Event)
      (hdue : now.reached due) (hmeanwhile : ∀ e ∈ before ++ between, e.Due window now)
      (hrest : Attends window (now.timer window) n rest) :
      Attends window due (n + 1)
        (before ++ .stirs (.writes .ctrl .flushes) :: between ++ .turns now millis :: rest)

/-- Whoever is still sending has nothing to wait for but the word of a writer that is done. -/
def Ready (l : Link) : Phase → Prop
  | .introducing _ => (l.outbox .ctrl).stopped = none → (l.outbox .ctrl).Idle
  | _ => True

/-- **Sending the introduction gets on**, or waits for the writer. -/
theorem within_introducing {l : Link} {x : Link.Writing} {m : Message}
    (hopens : l.Opens (if x.pends then [] else [m]))
    (hnumber : ∀ number, x = .handed number → number = 0) :
    (h.step t openStore (.introducing x) l).2.Leaves fun phase =>
      phase.Within (Phase.introducing x).distance ∨
        phase = .introducing x ∧ ¬ Ready l (.introducing x) := by
  have hfail (e : LinkError) : (fail (.sending e)).Leaves fun phase =>
      phase.Within (Phase.introducing x).distance ∨
        phase = .introducing x ∧ ¬ Ready l (.introducing x) :=
    (within_fail _).mono fun _ hphase => .inl (hphase.mono (Phase.le_distance_introducing x))
  rw [Handshake.step]
  unfold Link.write
  cases x with
  | start body =>
    dsimp only
    split
    · exact hfail _
    · split
      · exact hfail _
      · split
        · exact hfail _
        · exact .inl ⟨Nat.lt_succ_self 10, rfl⟩
  | queueing frame =>
    dsimp only
    split
    · exact hfail _
    · next hstopped =>
      split
      · exact .inl ⟨Nat.lt_succ_self 9, rfl⟩
      · next hnone =>
        -- an outbox that is idle has room
        refine .inr ⟨rfl, fun hready => ?_⟩
        have hqueue := (hready (Option.not_isSome_iff_eq_none.mp hstopped)).queue
        rw [Outbox.offer, hqueue, if_pos (by decide)] at hnone
        cases hnone
  | handed number =>
    dsimp only
    split
    · exact .inl ⟨Nat.lt_succ_self 8, rfl⟩
    · exact hfail _
    · next hfate =>
      -- where nothing is left to write, the one frame that was handed over has been written
      refine .inr ⟨rfl, fun hready => ?_⟩
      obtain ⟨hgoing, hle⟩ := Outbox.le_of_fate hfate
      have haccepted := ((hopens .ctrl).holds.whole hgoing).2
      rw [hnumber number rfl] at hle
      rw [Outbox.accepted, (hready hgoing).queue, (hready hgoing).hand] at haccepted
      have hone : (l.outbox .ctrl).written = 1 := haccepted
      omega

/-- The end is never further away than at first. -/
theorem Stands.distance_le (hphase : w.Stands h openStore l₀ phase) :
    phase.distance ≤ Phase.start.distance := by
  cases phase with
  | closing c fault => exact Nat.le_trans hphase.2.1 (Nat.le_of_ble_eq_true rfl)
  | introducing x => cases x <;> exact Nat.le_of_ble_eq_true rfl
  | start | introduced | listening _ | opening _ _ => exact Nat.le_of_ble_eq_true rfl

/-- **A turn brings the end nearer, or leaves the phase as it is**: the writer has more to write, or
the time for the answer is not up. -/
theorem Follows.nearer (hw : w.Follows h openStore t.id l₀) (hopen : l₀.closing = false)
    (hphase : w.progress.state? = some phase) :
    (h.step t openStore phase w.link).2.Leaves fun phase' =>
      (phase'.distance < phase.distance ∧ ∀ d ∈ alarm? phase', d = t.now.timer h.responseWindow) ∨
        phase' = phase ∧ (Ready w.link phase → ∃ d ∈ alarm? phase, t.now.reached d = false) := by
  have hwithin {phase' : Phase} {n : Nat} (hn : n ≤ phase.distance) (hnext : phase'.Within n) :
      phase'.distance < phase.distance ∧
        ∀ d ∈ alarm? phase', d = t.now.timer h.responseWindow :=
    ⟨Nat.lt_of_lt_of_le hnext.1 hn, fun d hd => absurd (hnext.2 ▸ hd) (Option.not_mem_none d)⟩
  obtain ⟨hstands, -⟩ := hw.account.next.of_state? hphase
  have hspoken : phase.Says h _ w.link := hw.said.next.of_state? hphase
  cases phase with
  | start =>
    rw [Handshake.step]
    split
    · exact (within_fail _).mono fun _ hnext => .inl (hwithin (by decide) hnext)
    · exact .inl ⟨Nat.lt_succ_self 11, fun d hd => absurd hd (Option.not_mem_none d)⟩
  | introducing x =>
    refine (within_introducing hspoken.2 hstands.2.2).mono ?_
    rintro phase' (hnext | ⟨rfl, hbusy⟩)
    · exact .inl (hwithin (Nat.le_refl _) hnext)
    · exact .inr ⟨rfl, fun hready => absurd hready hbusy⟩
  | introduced =>
    refine (h.within_hear (hstands.1.closing.trans hopen) hw.account.solo _).mono ?_
    rintro phase' (hnext | ⟨rfl, -⟩)
    · exact .inl (hwithin (by decide) hnext)
    · exact .inl ⟨Nat.lt_succ_self 7, fun d hd => (Option.some.inj hd).symm⟩
  | listening deadline =>
    refine (h.within_hear (hstands.1.closing.trans hopen) hw.account.solo _).mono ?_
    rintro phase' (hnext | ⟨rfl, hearly⟩)
    · exact .inl (hwithin (Nat.le_refl _) hnext)
    · exact .inr ⟨rfl, fun _ => ⟨deadline, rfl, hearly⟩⟩
  | opening config store =>
    rw [Handshake.step]
    split
    · exact trivial
    · exact (within_fail _).mono fun _ hnext => .inl (hwithin (Nat.le_refl _) hnext)
  | closing c fault =>
    obtain ⟨-, hend⟩ := Link.close_alone hw.account.solo c
    rw [Handshake.step]
    dsimp only
    rcases hend with ⟨r, hr⟩ | ⟨c', hc', hlt⟩
    · rw [hr]
      cases r with
      | ok _ => exact trivial
      | error e => exact e.elim
    · rw [hc']
      exact .inl ⟨hlt, fun d hd => absurd hd (Option.not_mem_none d)⟩

/-- A handshake that has ended remains so. -/
theorem run_of_ended {r : Except InitFault SessionConfig} (hend : w.progress = .ends r)
    (es : List Event) : (w.run h openStore id es).progress = .ends r := by
  induction es generalizing w with
  | nil => exact hend
  | cons e es ih =>
    refine ih ?_
    cases e with
    | turns now millis =>
      rw [Greeting.step, hend]
      exact hend
    | stirs x => exact hend

/-- After the writer has written, it has stopped or has nothing left. -/
theorem Follows.idle_of_flush (hw : w.Follows h openStore id l₀) {phase : Phase}
    (hphase : w.progress.state? = some phase) :
    let o := ((w.step h openStore id (.stirs (.writes .ctrl .flushes))).link.outbox .ctrl)
    o.stopped = none → o.Idle := by
  intro o hgoing
  have hspoken : phase.Says h _ w.link := hw.said.next.of_state? hphase
  have htidy : (w.link.outbox .ctrl).Tidy :=
    hspoken.opens.elim (fun hopens => (hopens .ctrl).holds.halted)
      fun hopens => (hopens .ctrl).holds.halted
  have ho : o = (w.link.outbox .ctrl).flush :=
    (Link.outbox_setOutbox ..).trans (if_pos rfl)
  rw [ho] at hgoing ⊢
  exact Outbox.idle_of_flush htidy hgoing

/-- What is idle stays so, whatever goes on around. -/
theorem ready_onLink {l : Link} (hready : Ready l phase) (x : Stir) :
    Ready (x.onLink l) phase := by
  cases phase with
  | introducing y =>
    intro hgoing
    rcases x.outbox_onLink_cases .ctrl l with hsame | ⟨a, -, hact⟩
    · rw [hsame] at hgoing ⊢
      exact hready hgoing
    · rw [hact] at hgoing ⊢
      have hbefore := (Outbox.going_of_act a hgoing).1
      exact (hready hbefore).act hbefore a
  | _ => trivial

/-- The end is so many turns away at most, and all that is waited for is due at this instant. -/
def Nears (due : Instant) (n : Nat) (w : Greeting) : Prop :=
  w.progress.Leaves fun phase => phase.distance ≤ n ∧ ∀ d ∈ alarm? phase, due.reached d

/-- …or it is one turn further away, and nothing is left to write. -/
def Poised (due : Instant) (n : Nat) (w : Greeting) : Prop :=
  w.progress.Leaves fun phase =>
    (phase.distance ≤ n ∨ phase.distance ≤ n + 1 ∧ Ready w.link phase) ∧
      ∀ d ∈ alarm? phase, due.reached d

section

variable {now : Instant} {n : Nat} {e : Event}

/-- **No event puts the end off.** -/
theorem Nears.step (hnear : w.Nears now n) (hw : w.Follows h openStore id l₀)
    (hopen : l₀.closing = false) (he : e.Due h.responseWindow now) :
    (w.step h openStore id e).Nears now n := by
  cases e with
  | stirs x => exact hnear
  | turns since millis =>
    rw [Greeting.step]
    cases hphase : w.progress.state? with
    | none => exact hnear
    | some phase =>
      obtain ⟨hle, halarm⟩ := hnear.of_state? hphase
      refine (hw.nearer (t := ⟨id, since, millis⟩) hopen hphase).mono ?_
      rintro phase' (⟨hlt, hnew⟩ | ⟨rfl, -⟩)
      · exact ⟨by omega, fun d hd => hnew d hd ▸ he⟩
      · exact ⟨hle, halarm⟩

/-- The writer writes all there is. -/
theorem Nears.poised (hnear : w.Nears now (n + 1)) (hw : w.Follows h openStore id l₀) :
    (w.step h openStore id (.stirs (.writes .ctrl .flushes))).Poised now n := by
  refine Progress.leaves_of_forall fun phase hphase => ?_
  obtain ⟨hle, halarm⟩ := hnear.of_state? hphase
  refine ⟨.inr ⟨hle, ?_⟩, halarm⟩
  cases phase with
  | introducing x => exact hw.idle_of_flush hphase
  | _ => trivial

/-- **What is left then is one turn**, whatever comes before it. -/
theorem Poised.step (hpoised : w.Poised now n) (hw : w.Follows h openStore id l₀)
    (hopen : l₀.closing = false) (he : e.Due h.responseWindow now) :
    (w.step h openStore id e).Poised now n := by
  cases e with
  | stirs x =>
    exact hpoised.mono fun phase ⟨hle, halarm⟩ =>
      ⟨hle.imp_right fun ⟨hnext, hready⟩ => ⟨hnext, ready_onLink hready x⟩, halarm⟩
  | turns since millis =>
    rw [Greeting.step]
    cases hphase : w.progress.state? with
    | none => exact hpoised
    | some phase =>
      obtain ⟨hle, halarm⟩ := hpoised.of_state? hphase
      refine (hw.nearer (t := ⟨id, since, millis⟩) hopen hphase).mono ?_
      rintro phase' (⟨hlt, hnew⟩ | ⟨rfl, hwaits⟩)
      · exact ⟨.inl (by omega), fun d hd => hnew d hd ▸ he⟩
      · refine ⟨hle.imp_right fun ⟨hnext, hready⟩ => ⟨hnext, ?_⟩, halarm⟩
        -- a phase that waits while nothing is left to write does not write
        obtain ⟨d, hd, -⟩ := hwaits hready
        cases phase' with
        | introducing x => exact absurd hd (Option.not_mem_none d)
        | _ => trivial

/-- …and when what is waited for is due, that turn brings the end nearer. -/
theorem Poised.turns (hpoised : w.Poised now n) (hw : w.Follows h openStore id l₀)
    (hopen : l₀.closing = false) (millis : Nat) :
    (w.step h openStore id (.turns now millis)).Nears (now.timer h.responseWindow) n := by
  have hlater {d : Instant} (hd : now.reached d) : (now.timer h.responseWindow).reached d :=
    Instant.reached_trans (decide_eq_true (now.le_timer h.responseWindow)) hd
  rw [Greeting.step]
  cases hphase : w.progress.state? with
  | none => exact Progress.leaves_of_forall fun _ hgoes => nomatch hphase.symm.trans hgoes
  | some phase =>
    obtain ⟨hle, halarm⟩ := hpoised.of_state? hphase
    refine (hw.nearer (t := ⟨id, now, millis⟩) hopen hphase).mono ?_
    rintro phase' (⟨hlt, hnew⟩ | ⟨rfl, hwaits⟩)
    · refine ⟨by omega, fun d hd => ?_⟩
      rw [hnew d hd]
      exact decide_eq_true (Int.le_refl _)
    · refine ⟨hle.resolve_right fun ⟨_, hready⟩ => ?_, fun d hd => hlater (halarm d hd)⟩
      obtain ⟨d, hd, hearly⟩ := hwaits hready
      exact absurd (halarm d hd) (Bool.eq_false_iff.mp hearly)

/-- What each of these events keeps, all of them keep. -/
theorem Follows.run_keeps {P : Greeting → Prop} (hopen : l₀.closing = false) {es : List Event}
    (hstep : ∀ w, ∀ e ∈ es, w.Follows h openStore id l₀ → P w → P (w.step h openStore id e))
    (hw : w.Follows h openStore id l₀) (hP : P w) : P (w.run h openStore id es) := by
  induction es generalizing w with
  | nil => exact hP
  | cons e es ih =>
    exact ih (fun w e' he' => hstep w e' (List.mem_cons_of_mem e he')) (hw.step hopen e)
      (hstep w e List.mem_cons_self hw hP)

end

/-- **A handshake that is attended to ends**, whatever else goes on. -/
theorem Follows.ends {due : Instant} {n : Nat} {later : List Event}
    (hlater : Attends h.responseWindow due n later) (hw : w.Follows h openStore id l₀)
    (hopen : l₀.closing = false) (hnear : w.Nears due n) :
    ∃ r, (w.run h openStore id later).progress = .ends r := by
  induction hlater generalizing w with
  | rests due es =>
    cases hphase : w.progress.state? with
    | none =>
      obtain ⟨r, hr⟩ := Progress.eq_ends_of_state? hphase
      exact ⟨r, run_of_ended hr es⟩
    | some phase =>
      have hzero := (hnear.of_state? hphase).1
      have hpos := phase.distance_pos
      omega
  | round due now millis n before between rest hdue hmeanwhile hrest ih =>
    have hnear' : w.Nears now (n + 1) :=
      hnear.mono fun _ ⟨hle, halarm⟩ =>
        ⟨hle, fun d hd => Instant.reached_trans hdue (halarm d hd)⟩
    have hbefore := hw.run hopen before
    have hnears := Follows.run_keeps (P := fun w => w.Nears now (n + 1)) hopen
      (fun w e he hw hnear => hnear.step hw hopen (hmeanwhile e (List.mem_append_left _ he)))
      hw hnear'
    have hflushed := hbefore.step hopen (.stirs (.writes .ctrl .flushes))
    have hbetween := hflushed.run hopen between
    have hpoised := Follows.run_keeps (P := fun w => w.Poised now n) hopen
      (fun w e he hw hpoised =>
        hpoised.step hw hopen (hmeanwhile e (List.mem_append_right _ he)))
      hflushed (hnears.poised hbefore)
    have hend := ih (hbetween.step hopen (.turns now millis)) (hpoised.turns hbetween hopen millis)
    rw [Greeting.run, List.foldl_append, List.foldl_append]
    exact hend

end Greeting

/-! ## Connecting -/

theorem lookup_setPair {β : Type} (key : String) (value : β) :
    ∀ pairs : List (String × β), (setPair key value pairs).lookup key = some value
  | [] => List.lookup_cons_self
  | p :: pairs => by
      rw [setPair]
      split
      · exact List.lookup_cons_self
      · next hne =>
        have hkey : (key == p.1) = false :=
          beq_eq_false_iff_ne.mpr fun heq => hne (heq ▸ beq_self_eq_true key)
        rw [List.lookup_cons, hkey]
        exact lookup_setPair key value pairs

namespace Rehearsal

open World

variable {w : World} {f : Flight}

/-- The flight is on its way to a session: it looks for the daemon, or shakes hands. -/
def Flight.Connecting (w : World) (f : Flight) : Prop :=
  ∃ c, w.client? f.client = some c ∧
    ((∃ o role deadline start, f.job = .dialing o role deadline start) ∨
      ∃ o h phase, f.job = .greeting o h phase ∧ c.endpoint.link?.isSome)

/-- The answer of a flight that has come to a session, or has failed to. -/
def Answer.concludes : Answer → Bool
  | .opened .. => true
  | .failure (.error (.connectTimeout ..)) _ => true
  | .failure (.error (.initialization _)) _ => true
  | _ => false

/-- **A flight that is connecting goes on with it, or concludes.** -/
theorem connecting_fly (hf : f.Connecting w) :
    ((w.fly f).2.answer = f.answer ∧ (w.fly f).2.Connecting (w.fly f).1) ∨
      ∃ answer, (w.fly f).2.answer = some answer ∧ answer.concludes := by
  obtain ⟨c, hclient, hjob⟩ := hf
  have hset (e : Endpoint) : (w.setClient f.client { c with endpoint := e }).client? f.client
      = some { c with endpoint := e } := lookup_setPair ..
  unfold fly
  rw [hclient]
  dsimp only
  rcases hjob with ⟨o, role, deadline, start, hjob⟩ | ⟨o, h, phase, hjob, hlink⟩
  · rw [hjob]
    dsimp only
    split
    · exact .inl ⟨rfl, c, hclient, .inl ⟨o, role, deadline, start, hjob⟩⟩
    · split
      · next start' _ => exact .inl ⟨rfl, c, hclient, .inl ⟨o, role, deadline, start', rfl⟩⟩
      · exact .inr ⟨_, rfl, rfl⟩
      · exact .inl ⟨rfl, _, hset _, .inr ⟨o, _, .start, rfl, rfl⟩⟩
  · rw [hjob]
    obtain ⟨link, hlink⟩ := Option.isSome_iff_exists.mp hlink
    dsimp only
    rw [hlink]
    dsimp only
    split
    · exact .inl ⟨rfl, _, hset _, .inr ⟨o, h, _, rfl, rfl⟩⟩
    · exact .inl ⟨rfl, _, hset _, .inr ⟨o, h, _, rfl, rfl⟩⟩
    · exact .inr ⟨_, rfl, rfl⟩
    · exact .inr ⟨_, rfl, rfl⟩

end Rehearsal

/-! ## What comes of a greeting -/

namespace Greeting

variable {h : Handshake} {openStore : StoreParams → Except StoreError Unit} {id : CallId}
  {l₀ : Link} {w : Greeting}

open Handshake

/-- The first frame that the client finds accepts the introduction and sets these terms, and the
store that they name is there, or the caller brings one. -/
def Accepts (h : Handshake) (openStore : StoreParams → Except StoreError Unit) (k : Look)
    (terms : Terms) : Prop :=
  ∃ body m, (Frame.bodies k.stream).head? = some body ∧ Message.decode body = .ok m ∧
    m.operation = .init ∧ m.resultCode ≠ .failure ∧ m.terms = some terms ∧
    (terms.useStore → h.bringsStore = false →
      openStore ⟨terms.storeAddress, terms.storePort, terms.storeIndex⟩ = .ok ())

theorem answer_eq_ok_iff {k : Look} {config : SessionConfig} :
    h.answer openStore k = .ok config ↔
      ∃ terms, Accepts h openStore k terms ∧ config = .ofTerms terms := by
  refine answer_eq_ok.trans ⟨?_, ?_⟩
  · rintro ⟨body, m, terms, hbody, hm, hinit, hcode, hterms, hconfig, hstore⟩
    exact ⟨terms, ⟨body, m, hbody, hm, hinit, hcode, hterms, hstore⟩, hconfig⟩
  · rintro ⟨terms, ⟨body, m, hbody, hm, hinit, hcode, hterms, hstore⟩, hconfig⟩
    exact ⟨body, m, terms, hbody, hm, hinit, hcode, hterms, hconfig, hstore⟩

theorem Follows.opens (hw : w.Follows h openStore id l₀) :
    w.link.Opens [] ∨ w.link.Opens [hello h l₀] := by
  cases hprogress : w.progress with
  | waits phase | goes phase =>
    have hspoken : phase.Says h _ w.link := hw.said.next.of_state? (by rw [hprogress]; rfl)
    exact hspoken.opens
  | ends r =>
    cases r with
    | ok config => exact .inr (hw.said.done config hprogress).1
    | error fault => exact hw.said.failed fault hprogress

/-- **At any moment the introduction is all that is on the wire**, as far as it goes. -/
theorem Follows.wire (hw : w.Follows h openStore id l₀) :
    (∃ rest, (w.link.outbox .ctrl).wire ++ rest = Frame.wrap (hello h l₀).spelled) ∧
      ∀ c, c ≠ .ctrl → (w.link.outbox c).wire = .empty := by
  have hnone {o : Outbox} (ho : o.Carries []) : o.wire = .empty := by
    obtain ⟨rest, hrest⟩ := ho.front
    have hsize := congrArg ByteArray.size hrest
    rw [ByteArray.size_append] at hsize
    exact ByteArray.size_eq_zero_iff.mp (Nat.eq_zero_of_add_eq_zero_right hsize)
  have hother {row : List Message} (hopens : w.link.Opens row) (c : Channel) (hc : c ≠ .ctrl) :
      (w.link.outbox c).wire = .empty := by
    have hcarries := hopens c
    rw [if_neg hc] at hcarries
    exact hnone hcarries
  rcases hw.opens with hopens | hopens
  · refine ⟨⟨Frame.wrap (hello h l₀).spelled, ?_⟩, hother hopens⟩
    rw [hnone (hopens .ctrl), ByteArray.empty_append]
  · refine ⟨?_, hother hopens⟩
    obtain ⟨rest, hrest⟩ := (hopens .ctrl).front
    exact ⟨rest, hrest.trans ByteArray.append_empty⟩

/-- A greeting that has ended has a look that decided, or has failed before the first. -/
theorem Follows.looks (hw : w.Follows h openStore id l₀) {r : Except InitFault SessionConfig}
    (hend : w.progress = .ends r) :
    (w.looks = [] ∧ ∃ fault, r = .error fault) ∨
      ∃ k, h.Decided w.looks k ∧ h.answer openStore k = r := by
  cases r with
  | ok config => exact .inr (hw.account.done config hend).2
  | error fault => exact (hw.account.failed fault hend).2.imp_left fun hnone => ⟨hnone, fault, rfl⟩

theorem Accepts.offer {k : Look} {terms : Terms} (hk : Accepts h openStore k terms) :
    k.offer ≠ .nothing := by
  obtain ⟨body, -, hbody, -⟩ := hk
  intro hoffer
  have hnone : k.offer.body? = some body := (Inbox.Offer.body?_due ..).trans hbody
  rw [hoffer] at hnone
  exact absurd hnone.symm (Option.some_ne_none body)

/-- **Of a greeting that has ended, a look that finds an acceptance is the one that decided.** -/
theorem Follows.ok_of_accepts (hw : w.Follows h openStore id l₀)
    {r : Except InitFault SessionConfig} (hend : w.progress = .ends r) {k : Look}
    (hk : k ∈ w.looks) {terms : Terms} (haccepts : Accepts h openStore k terms) :
    r = .ok (.ofTerms terms) := by
  rcases hw.looks hend with ⟨hnone, -⟩ | ⟨last, hdecided, rfl⟩
  · exact absurd (hnone ▸ hk) List.not_mem_nil
  · obtain ⟨before, hlooks, hidle⟩ := hdecided.last
    rw [hlooks] at hk
    rcases List.mem_append.mp hk with hk | hk
    · exact absurd (hidle k hk).1 haccepts.offer
    · obtain rfl := List.mem_singleton.mp hk
      exact answer_eq_ok_iff.mpr ⟨terms, haccepts, rfl⟩

/-- …and of one that has come to a session, some look has found an acceptance. -/
theorem Follows.accepts_of_ok (hw : w.Follows h openStore id l₀) {config : SessionConfig}
    (hend : w.progress = .ends (.ok config)) :
    ∃ k ∈ w.looks, ∃ terms, Accepts h openStore k terms ∧ config = .ofTerms terms := by
  obtain ⟨-, k, hdecided, hanswer⟩ := hw.account.done config hend
  obtain ⟨before, hlooks, -⟩ := hdecided.last
  exact ⟨k, hlooks ▸ List.mem_append_right _ List.mem_cons_self, answer_eq_ok_iff.mp hanswer⟩

/-- **The looks of a greeting that has ended**: all but the last were idle, and the last was not, or
it was too late. -/
theorem Follows.idle (hw : w.Follows h openStore id l₀) {r : Except InitFault SessionConfig}
    (hend : w.progress = .ends r) :
    (∀ k ∈ w.looks.dropLast, h.Idle w.looks k) ∧
      ∀ k ∈ w.looks.getLast?, k.offer = .nothing →
        ∀ deadline ∈ h.deadline? w.looks, k.now.reached deadline := by
  rcases hw.looks hend with ⟨hnone, -⟩ | ⟨last, hdecided, -⟩
  · rw [hnone]
    exact ⟨fun k hk => absurd hk List.not_mem_nil, fun k hk => absurd hk (Option.not_mem_none k)⟩
  · obtain ⟨before, hlooks, hidle⟩ := hdecided.last
    refine ⟨fun k hk => hidle k ?_, fun k hk => ?_⟩
    · rwa [hlooks, List.dropLast_concat] at hk
    · rw [hlooks, List.getLast?_concat] at hk
      exact Option.some.inj hk ▸ hdecided.late

/-- A session has keys to a store exactly if the terms ask for one. -/
theorem keys_session (l : Link) (terms : Terms) :
    (h.session l (.ofTerms terms)).keys.isSome ↔ terms.useStore := by
  rw [session, SessionConfig.usesStore, SessionConfig.ofTerms]
  cases terms.useStore with
  | true => exact ⟨fun _ => rfl, fun _ => rfl⟩
  | false => exact ⟨fun hsome => hsome, fun huse => huse⟩

/-- **A session begins exactly if the daemon accepts in time, and where it does not, nothing is left
open.**  Let a client introduce itself on a new link, whatever the daemon does, whatever the
client's identifier, whether or not the caller brings a store.  A handshake that has ended has come
to a session exactly if the introduction could be written and the client has found, on one of its
looks at the control channel, that the first frame spells a message with the operation of an
introduction, a result that is no failure, and terms, and that the store which the terms name is
there, or one was brought.  The last look decides: those before it found neither a frame nor a
reason why there is none, within the time for the answer, and the last one finds nothing only when
the time is up.  The session has the configuration that the terms say, and keys to a store exactly
if they ask for one.

A handshake that has failed has closed the link and shut its three channels.  At no time is there
anything on the wire but the introduction.  And a handshake that is attended to does end, whatever
else goes on; so whoever connects goes on connecting, or has a session, or is told that the daemon
was not reached or why the handshake failed. -/
theorem opens_iff_accepted (h : Handshake) (openStore : StoreParams → Except StoreError Unit)
    (id : CallId) {l : Link} (hopen : l.closing = false) (hlines : ∀ c, (l.inbox c).line = [])
    (hnew : ∀ c, l.outbox c = {}) (es : List Event) :
    let w := (start l).run h openStore id es
    (∀ r, w.progress = .ends r →
      ((∃ config, r = .ok config) ↔
        (hello h l).Sayable ∧ (w.link.outbox .ctrl).Begins (Frame.wrap (hello h l).spelled) ∧
          ∃ k ∈ w.looks, ∃ terms, Accepts h openStore k terms) ∧
      (∀ config, r = .ok config → ∃ k ∈ w.looks, ∃ terms, Accepts h openStore k terms ∧
        (h.session w.link config).config = .ofTerms terms ∧
        ((h.session w.link config).keys.isSome ↔ terms.useStore)) ∧
      (∀ fault, r = .error fault → w.link.closing ∧ ∀ c, (w.link.outbox c).shut) ∧
      (∀ k ∈ w.looks.dropLast, h.Idle w.looks k) ∧
      ∀ k ∈ w.looks.getLast?, k.offer = .nothing →
        ∀ deadline ∈ h.deadline? w.looks, k.now.reached deadline) ∧
    (∃ rest, (w.link.outbox .ctrl).wire ++ rest = Frame.wrap (hello h l).spelled) ∧
    (∀ c, c ≠ .ctrl → (w.link.outbox c).wire = .empty) ∧
    (∀ due later, (∀ phase, w.progress.state? = some phase → ∀ d ∈ alarm? phase, due.reached d) →
      Attends h.responseWindow due 12 later →
      ∃ r, (w.run h openStore id later).progress = .ends r) ∧
    ∀ (world : Rehearsal.World) (f : Rehearsal.Flight), f.Connecting world →
      (world.fly f).2.answer = f.answer ∧ (world.fly f).2.Connecting (world.fly f).1 ∨
        ∃ answer, (world.fly f).2.answer = some answer ∧ answer.concludes := by
  intro w
  have hw : w.Follows h openStore id l := (Follows.start hlines hnew).run hopen es
  refine ⟨fun r hend => ?_, hw.wire.1, hw.wire.2, fun due later halarm hlater => ?_,
    fun world f hf => Rehearsal.connecting_fly hf⟩
  · refine ⟨⟨?_, ?_⟩, ?_, fun fault hr => ?_, hw.idle hend⟩
    · rintro ⟨config, rfl⟩
      obtain ⟨hopens, hbegins⟩ := hw.said.done config hend
      obtain ⟨k, hk, terms, haccepts, -⟩ := hw.accepts_of_ok hend
      exact ⟨(hopens .ctrl).sayable _ List.mem_cons_self, hbegins, k, hk, terms, haccepts⟩
    · rintro ⟨-, -, k, hk, terms, haccepts⟩
      exact ⟨_, hw.ok_of_accepts hend hk haccepts⟩
    · rintro config rfl
      obtain ⟨k, hk, terms, haccepts, rfl⟩ := hw.accepts_of_ok hend
      exact ⟨k, hk, terms, haccepts, rfl, keys_session w.link terms⟩
    · subst hr
      obtain ⟨hclosing, hshut⟩ := (hw.account.failed fault hend).1
      exact ⟨hclosing, hshut⟩
  · refine hw.ends hlater hopen (Progress.leaves_of_forall fun phase hphase => ?_)
    exact ⟨(hw.account.next.of_state? hphase).1.distance_le, halarm phase hphase⟩

/-- An answer that comes in two pieces is found on the second look, and names a store that can be
opened; where it cannot, the link is closed. -/
theorem opens_iff_accepted_stored :
    let h : Handshake := { identifier := "a", role := .application, responseWindow := .ofSeconds 1 }
    let terms : Terms := { mode := .push, useStore := true, storeAddress := "store" }
    let frame := ((Message.initResponse .success terms).encode.map Frame.wrap).toOption.getD .empty
    let turn : Event := .turns ⟨0⟩ 0
    let comes (bytes : ByteArray) : Event := .stirs (.arrives .ctrl bytes)
    let es := [turn, turn, turn, .stirs (.writes .ctrl .flushes), turn,
      comes (frame.extract 0 3), turn, comes (frame.extract 3 frame.size), turn, turn, turn, turn,
      turn, turn, turn]
    let opened := (start {}).run h (fun _ => .ok ()) 0 es
    let failed := (start {}).run h (fun _ => .error ⟨"refused"⟩) 0 es
    ({} : Link).closing = false ∧ (∀ c, (({} : Link).inbox c).line = []) ∧
      (∀ c, ({} : Link).outbox c = {}) ∧
      (∃ k ∈ opened.looks, ∃ terms, Accepts h (fun _ => .ok ()) k terms) ∧
      opened.looks.length = 2 ∧ failed.looks.length = 2 ∧
      failed.link.closing ∧ ∀ c, (failed.link.outbox c).shut := by
  intro h terms frame turn comes es
  dsimp only
  have hlines (c : Channel) : (({} : Link).inbox c).line = [] := by cases c <;> rfl
  have hnew (c : Channel) : ({} : Link).outbox c = {} := by cases c <;> rfl
  have hopened : ((start {}).run h (fun _ => .ok ()) 0 es).progress.reply?
      = some (.ofTerms terms) := by decide +kernel
  have herror : ∃ fault, ((start {}).run h (fun _ => .error ⟨"refused"⟩) 0 es).progress
      = .ends (.error fault) :=
    Progress.exists_error_of_reply? (by decide +kernel) (by decide +kernel)
  obtain ⟨hverdict, -⟩ := opens_iff_accepted h (fun _ => .ok ()) 0 rfl hlines hnew es
  obtain ⟨hiff, -⟩ := hverdict _ (Progress.eq_ends_of_reply? hopened)
  obtain ⟨-, -, haccepts⟩ := hiff.mp ⟨_, rfl⟩
  obtain ⟨fault, hfault⟩ := herror
  obtain ⟨hverdict', -⟩ :=
    opens_iff_accepted h (fun _ => .error ⟨"refused"⟩) 0 rfl hlines hnew es
  obtain ⟨-, -, hshut, -⟩ := hverdict' _ hfault
  obtain ⟨hclosing, hall⟩ := hshut fault rfl
  exact ⟨rfl, hlines, hnew, haccepts, by decide +kernel, by decide +kernel, hclosing, hall⟩

end Greeting

end SimRelay
