import SimRelay.Wire.Layout

/-!
# Wire/Body — the bodies of the five sections

Fields lie in the order in which the structures declare them; an enumeration is a four-byte number,
in the order of its constructors.
-/

namespace SimRelay.Layout

def operation : Layout Operation :=
  choice [.init, .ping, .exit, .send, .receive, .fetch, .post, .forward]
    Operation.ctorIdx (fun a => by cases a <;> decide) (fun a => by cases a <;> rfl)
    (by
      intro i a h
      match i with
      | 0 | 1 | 2 | 3 | 4 | 5 | 6 | 7 => cases h; rfl
      | n + 8 => simp at h)

def originator : Layout Originator :=
  choice [.application, .simulator, .daemon]
    Originator.ctorIdx (fun a => by cases a <;> decide) (fun a => by cases a <;> rfl)
    (by
      intro i a h
      match i with
      | 0 | 1 | 2 => cases h; rfl
      | n + 3 => simp at h)

def resultCode : Layout ResultCode :=
  choice [.success, .failure, .message, .noMessage]
    ResultCode.ctorIdx (fun a => by cases a <;> decide) (fun a => by cases a <;> rfl)
    (by
      intro i a h
      match i with
      | 0 | 1 | 2 | 3 => cases h; rfl
      | n + 4 => simp at h)

def addressType : Layout AddressType :=
  choice [.text] (fun _ => 0) (fun _ => by decide) (fun _ => rfl)
    (by
      intro i a h
      match i with
      | 0 => rfl
      | n + 1 => simp at h)

def systemMode : Layout SystemMode :=
  choice [.pull, .push] SystemMode.ctorIdx (fun a => by cases a <;> decide)
    (fun a => by cases a <;> rfl)
    (by
      intro i a h
      match i with
      | 0 | 1 => cases h; rfl
      | n + 2 => simp at h)

def manifest : Layout Manifest :=
  (operation.both (originator.both resultCode)).iso
    (fun p => ⟨p.1, p.2.1, p.2.2⟩)
    (fun m => (m.operation, m.originator, m.resultCode))
    (fun _ => rfl) (fun _ => rfl)

def metadata : Layout Metadata :=
  (addressType.both (text.optional.both (text.optional.both u64))).iso
    (fun p => ⟨p.1, p.2.1, p.2.2.1, p.2.2.2⟩)
    (fun m => (m.addressType, m.source, m.destination, m.payloadSize))
    (fun _ => rfl) (fun _ => rfl)

def intro : Layout Intro :=
  (text.both (text.both (u16.both (u16.both u16)))).iso
    (fun p => ⟨p.1, p.2.1, p.2.2.1, p.2.2.2.1, p.2.2.2.2⟩)
    (fun i => (i.identifier, i.address, i.ctrlPort, i.sendPort, i.recvPort))
    (fun _ => rfl) (fun _ => rfl)

def terms : Layout Terms :=
  (systemMode.both (bool.both (text.both (u16.both u32)))).iso
    (fun p => ⟨p.1, p.2.1, p.2.2.1, p.2.2.2.1, p.2.2.2.2⟩)
    (fun t => (t.mode, t.useStore, t.storeAddress, t.storePort, t.storeIndex))
    (fun _ => rfl) (fun _ => rfl)

def payload : Layout Payload :=
  (bytes.either text).iso
    (fun | .inl bytes => .inline bytes | .inr key => .key key)
    (fun | .inline bytes => .inl bytes | .key key => .inr key)
    (fun p => by cases p <;> rfl) (fun p => by cases p <;> rfl)

end SimRelay.Layout
