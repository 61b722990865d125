import SimRelay.Call.Pull
import SimRelay.Proofs.Session.Hearing

/-!
# Proofs/Call/Deliveries — the account of what comes in

A client of one role asks by one end of the route: applications by destination, simulators by
source.  Whether it wants a delivery depends on that end alone (`accepts_congr`), so handing out the
oldest that is wanted never lets a delivery overtake another of the same route.

`Books` says what this comes to: on every route, what was handed out and what is kept are what was
read, in order.  That nothing is lost or handed out twice follows (`Books.perm`).
-/

namespace SimRelay

/-! ## Deliveries -/

/-- The usable deliveries among the bodies of a channel, in order. -/
def deliveries (expected : Operation) (bodies : List ByteArray) : List Message :=
  bodies.filterMap fun body => (Message.ofBody? body).filter (Message.isDelivery expected)

variable {role : Role} {wanted : Wanted}

theorem deliveries_append (expected : Operation) (bodies more : List ByteArray) :
    deliveries expected (bodies ++ more)
      = deliveries expected bodies ++ deliveries expected more :=
  List.filterMap_append

/-- What one attempt at reading brought, seen by the message it spelled. -/
theorem deliveries_toList (expected : Operation) : ∀ body? : Option ByteArray,
    deliveries expected body?.toList
      = ((body?.bind Message.ofBody?).filter (Message.isDelivery expected)).toList
  | none => rfl
  | some body => by
      change List.filterMap _ [body] = _
      rw [List.filterMap_cons, List.filterMap_nil]
      cases h : (Message.ofBody? body).filter (Message.isDelivery expected) <;>
        simp only [Option.bind_some, h] <;> rfl

/-! ## Routes -/

/-- The end of a delivery's route by which clients of a role ask for it. -/
def Role.route (role : Role) (m : Message) : Option String :=
  match role with
  | .application => m.destination
  | .simulator => m.source

/-- A client of this role asks so. -/
def Wanted.Suits (role : Role) : Wanted → Prop
  | .addressedTo _ => role = .application
  | .sentBy _ => role = .simulator

/-- **Deliveries of one route are wanted alike.** -/
theorem Wanted.Suits.accepts_congr {m m' : Message} :
    ∀ {role : Role} {wanted : Wanted}, wanted.Suits role →
      role.route m = role.route m' → wanted.accepts m = wanted.accepts m'
  | _, .addressedTo destination, rfl, hroute =>
      congrArg (fun end? => decide (end? = some destination)) hroute
  | _, .sentBy none, _, _ => rfl
  | _, .sentBy (some source), rfl, hroute =>
      congrArg (fun end? => decide (end? = some source)) hroute

/-! ## Books -/

/-- The part of a row of deliveries that is on one route. -/
def Role.along (role : Role) (r : Option String) (row : List Message) : List Message :=
  row.filter (role.route · = r)

theorem Role.along_append (role : Role) (r : Option String) (row more : List Message) :
    role.along r (row ++ more) = role.along r row ++ role.along r more :=
  List.filter_append ..

/-- The account of a session: what was read off the channel, what is kept, and what was handed out,
each with what the call had asked for. -/
structure Books (role : Role) (read kept : List Message) (handed : List (Wanted × Message)) :
    Prop where
  /-- What is kept is in order of arrival. -/
  order : kept.Sublist read
  /-- On every route, what was handed out came before what is kept, and both are all there was. -/
  routes : ∀ r, role.along r (handed.map Prod.snd) ++ role.along r kept = role.along r read
  fitting : ∀ p ∈ handed, p.1.accepts p.2

namespace Books

variable {read kept row row' : List Message} {handed : List (Wanted × Message)}

theorem nil (role : Role) : Books role [] [] [] :=
  ⟨.slnil, fun _ => rfl, fun _ h => nomatch h⟩

/-- **Each delivery that was read was handed out or is kept**, and only once. -/
theorem perm (h : Books role read kept handed) : (handed.map Prod.snd ++ kept).Perm read := by
  refine List.perm_iff_count.mpr fun m => ?_
  have halong (row : List Message) : (role.along (role.route m) row).count m = row.count m :=
    List.count_filter (by simp)
  rw [List.count_append, ← halong, ← halong kept, ← List.count_append, h.routes, halong]

/-- What is read is kept at first. -/
theorem come (h : Books role read kept handed) (came : List Message) :
    Books role (read ++ came) (kept ++ came) handed where
  order := h.order.append (.refl came)
  routes r := by
    rw [Role.along_append, ← List.append_assoc, h.routes, Role.along_append]
  fitting := h.fitting

end Books

/-! ## Handing out -/

namespace Pull

/-- What a step of a pull makes of a row of deliveries: it leaves the row alone, or hands out the
oldest delivery that is wanted. -/
inductive Moves (wanted : Wanted) (row : List Message) : Option Message → List Message → Prop
  | keeps : Moves wanted row none row
  | hands {before after : List Message} {m : Message} (split : row = before ++ m :: after)
      (fits : wanted.accepts m) (oldest : ∀ x ∈ before, ¬ wanted.accepts x) :
      Moves wanted row (some m) (before ++ after)

end Pull

/-- **Handing out the oldest delivery that is wanted keeps the books in order.** -/
theorem Books.moves {read row kept : List Message} {handed : List (Wanted × Message)}
    {out : Option Message} (h : Books role read row handed) (hsuits : wanted.Suits role)
    (hmoves : Pull.Moves wanted row out kept) :
    Books role read kept (handed ++ out.toList.map (wanted, ·)) := by
  cases hmoves with
  | keeps =>
    rw [Option.toList_none, List.map_nil, List.append_nil]
    exact h
  | @hands before after m hsplit hfits holdest =>
    refine ⟨?_, fun r => ?_, ?_⟩
    · have hkept : (before ++ after).Sublist row :=
        hsplit ▸ (List.Sublist.refl before).append (List.sublist_cons_self m after)
      exact hkept.trans h.order
    · -- nothing that was kept before this delivery is on its route
      have hcomm : role.along r before ++ role.along r [m]
          = role.along r [m] ++ role.along r before := by
        by_cases hm : role.route m = r
        · have hnone : role.along r before = [] := by
            refine List.filter_eq_nil_iff.mpr fun x hx hroute => holdest x hx ?_
            rw [hsuits.accepts_congr ((of_decide_eq_true hroute).trans hm.symm)]
            exact hfits
          rw [hnone, List.append_nil, List.nil_append]
        · have hnone : role.along r [m] = [] := by simp [Role.along, hm]
          rw [hnone, List.append_nil, List.nil_append]
      calc role.along r ((handed ++ [(wanted, m)]).map Prod.snd) ++ role.along r (before ++ after)
          = role.along r (handed.map Prod.snd)
              ++ (role.along r [m] ++ role.along r before ++ role.along r after) := by
            rw [List.map_append, Role.along_append, Role.along_append, List.append_assoc,
              List.append_assoc]
            rfl
        _ = role.along r (handed.map Prod.snd) ++ role.along r row := by
            rw [← hcomm, hsplit, List.append_cons, Role.along_append, Role.along_append]
        _ = role.along r read := h.routes r
    · intro p hp
      rcases List.mem_append.mp hp with hp | hp
      · exact h.fitting p hp
      · rw [List.mem_singleton.mp hp]
        exact hfits

end SimRelay
