import TeachLang.Proofs.Apart

/-!
# Calls are isolated

Two machines may differ in all scopes but the root, and in the scope in which the program stands. A
call comes to the same on both, and leaves those scopes as they were: what it does happens in the
root and in scopes behind all others.

Machines apart are in lockstep, so that whatever a method does goes the same way on both. What is
left to do is the outermost call, which begins where the machines still differ.
-/

namespace TeachLang

variable {α : Type} {M N : Machine}

/-- Machines apart are so in lockstep. -/
theorem apart_lockstep (M N : Machine) : Lockstep (Apart M N) (Apart M N) where
  left h := h.left.sound
  right h := h.right.sound
  lookupVariable h := h.lookupVariable_eq
  lookupFunction h := h.sameRoot.lookupFunction_eq h.left.sound h.right.sound
  declare h := h.declare
  assign h := h.assign
  block h := h.enter h.scope h.left.sound.live h.right.sound.live
  method h := h.enter (.inl ⟨rfl, rfl⟩) h.left.sound.depth_pos h.right.sound.depth_pos
  leave h h' := h.leave h'
  print h := h.print

variable {host : Host}

namespace Run

/-- A run ends alike on machines apart. -/
def Blind (M N : Machine) (r : Run α) : Prop :=
  ∀ m n, Apart M N m n → Outcome.Alike (Apart M N) (r m) (r n)

/-- Calls end alike on machines apart, however deep they are nested. -/
theorem call_blind (host : Host) (fuel : Nat) : Caller.Respects (Apart M N) (call host fuel) :=
  call_respects (apart_lockstep M N) host fuel (apart_lockstep M N)

theorem method_blind {fuel : Nat} (hcalls : Caller.Respects (Apart M N) (call host fuel))
    (method : Method) (arguments : List Value) :
    Blind M N (do
      declareParameters method.span.start method.parameters arguments
      Stmt.executeAll host (call host fuel) fuel method.body) :=
  method_respects (apart_lockstep M N) hcalls method arguments

end Run

namespace Machine

/-- Of a machine nothing was changed but values in its root, and what was printed. -/
structure Undisturbed (m last : Machine) : Prop where
  /-- it has what it had, and nothing else -/
  keeps : m.Keeps none none last
  /-- the scopes other than the root are as they were -/
  scopes : ∀ id, id ≠ Scopes.root → last.scopes.get? id = m.scopes.get? id

/-- What a call made of two machines is the same on both, and it left alone all that can be
different: they have the same root, what was printed is the same, and the other scopes of each are
as they were. -/
structure Called (M N m n : Machine) : Prop where
  /-- the root -/
  root : m.SameRoot n
  /-- all else of the one -/
  left : M.Undisturbed m
  /-- all else of the other -/
  right : N.Undisturbed n
  /-- what was printed -/
  printed : ∃ more, m.printer = M.printer.append more ∧ n.printer = N.printer.append more

end Machine

theorem Machine.Beyond.undisturbed {m last : Machine} (h : m.Beyond last)
    (hkeeps : m.Keeps none none (last.leave m.scopes.fresh m.scope)) :
    m.Undisturbed (last.leave m.scopes.fresh m.scope) := by
  refine ⟨hkeeps, fun id hid => ?_⟩
  refine (last.scopes.get?_release h.live id).trans ?_
  split
  · next hlt => exact h.scopes id hid hlt
  · next hge => exact (Array.getElem?_eq_none (Nat.le_of_not_lt hge)).symm

/-- Back from a call there are only the scopes that there were before it. -/
theorem Apart.called {m n : Machine} (h : Apart M N m n)
    (hM : M.Keeps none none (m.leave M.scopes.fresh M.scope))
    (hN : N.Keeps none none (n.leave N.scopes.fresh N.scope)) :
    Machine.Called M N (m.leave M.scopes.fresh M.scope) (n.leave N.scopes.fresh N.scope) := by
  have hleft : (m.leave M.scopes.fresh M.scope).scopes.get? Scopes.root =
      m.scopes.get? Scopes.root :=
    (m.scopes.get?_release h.left.live _).trans (if_pos h.left.live)
  have hright : (n.leave N.scopes.fresh N.scope).scopes.get? Scopes.root =
      n.scopes.get? Scopes.root :=
    (n.scopes.get?_release h.right.live _).trans (if_pos h.right.live)
  have hroot := h.scopes (.inl ⟨rfl, rfl⟩)
  rw [← hleft, ← hright] at hroot
  exact ⟨.of_twins hroot, h.left.undisturbed hM, h.right.undisturbed hN, h.printed⟩

theorem Machine.called_print (hroot : M.SameRoot N) (more : String) :
    Machine.Called M N { M with printer := M.printer.append more }
      { N with printer := N.printer.append more } :=
  ⟨⟨hroot.values, hroot.functions⟩, ⟨M.keeps_print more, fun _ _ => rfl⟩,
    ⟨N.keeps_print more, fun _ _ => rfl⟩, more, rfl, rfl⟩

theorem Machine.called_self (hroot : M.SameRoot N) : Machine.Called M N M N :=
  ⟨hroot, ⟨.refl M, fun _ _ => rfl⟩, ⟨.refl N, fun _ _ => rfl⟩, "", M.printer.append_empty.symm,
    N.printer.append_empty.symm⟩

/-- The outermost call of a method. -/
theorem Run.Blind.called {inner : Run α} (h : inner.Blind M N) (hstays : inner.Stays some none)
    (hM : M.Sound) (hN : N.Sound) (hroot : M.SameRoot N) :
    Outcome.Alike (Machine.Called M N) (Run.inScope Scopes.root inner M)
      (Run.inScope Scopes.root inner N) := by
  have hentered : Apart M N (M.enter Scopes.root) (N.enter Scopes.root) :=
    (Apart.start hM hN hroot).enter (.inl ⟨rfl, rfl⟩) hM.depth_pos hN.depth_pos
  exact Run.alike_inScope (h _ _ hentered) hstays hM.depth_pos hN.depth_pos Apart.called

/-- A call comes to the same on any two machines that there can be with the same root, whatever else
is different, and leaves all else as it was. -/
theorem Machine.Reachable.call_isolated (hM : M.Reachable host) (hN : N.Reachable host)
    (hroot : M.SameRoot N) (fuel : Nat) (name : String) (arguments : List Value)
    (position : Position) :
    Outcome.Alike (Machine.Called M N) (Run.call host fuel name arguments position M)
      (Run.call host fuel name arguments position N) := by
  cases fuel with
  | zero => exact .exhausted
  | succ fuel =>
    have hlook : Outcome.Alike (fun m n => m = M ∧ n = N)
        (Run.look (·.lookupFunction name arguments.length position) M)
        (Run.look (·.lookupFunction name arguments.length position) N) := by
      simp only [Run.look, hroot.lookupFunction_eq hM.sound hN.sound, Run.ofExcept]
      cases N.lookupFunction name arguments.length position with
      | ok callable => exact .done ⟨rfl, rfl⟩
      | error d => exact .failed ⟨rfl, rfl⟩
    rw [Run.call]
    refine hlook.bind (fun {callable m n} hlooked hmid => ?_) fun {m n} hmid => ?_
    · obtain ⟨hfound, -⟩ := Run.eq_of_look hlooked
      obtain ⟨rfl, rfl⟩ := hmid
      cases callable with
      | print =>
        simp only [Run.print, Run.foldl_printLine]
        exact .done (Machine.called_print hroot _)
      | native answer =>
        simp only [Run.ofExcept]
        cases answer arguments with
        | ok value => exact .done (Machine.called_self hroot)
        | error d => exact .failed (Machine.called_self hroot)
      | method method home =>
        obtain rfl := hM.sound.home_eq hfound
        have hcall := (Run.method_blind (Run.call_blind host fuel) method arguments).called
          (Run.method_stays host fuel method arguments) hM.sound hN.sound hroot
        exact hcall.bind (fun _ hlast => .done hlast) id
    · obtain ⟨rfl, rfl⟩ := hmid
      exact Machine.called_self hroot

namespace Machine

/-- A method that counts its calls, prints and asks for a variable that it does not have. -/
def prying : Method where
  name := "pry"
  parameters := []
  resultTypeName := none
  body := [.assignment (.name "calls" none default)
      (.binary .plus (.name "calls" none default) (.literal (.integer 1) none default) none default)
      default,
    .expression (.call Signature.print.name [.name "calls" none default] none default) default,
    .returns (.name "hidden" none default) default]
  callee := none
  span := default

/-- A root with the method and its counter. -/
def pryingRoot : Scope Value Callable :=
  .ofLists none [("calls", .ofLiteral (.integer 0))]
    [((Signature.print.name, Signature.print.arity), .print),
      (("pry", 0), .method prying Scopes.root)]

/-- A machine in a block that has the variable. -/
def secretive : Machine where
  scopes := ⟨#[pryingRoot, .ofLists (some Scopes.root) [("hidden", .ofLiteral (.integer 7))] []]⟩
  scope := 1
  printer := .empty

/-- A machine with nothing but the root. -/
def candid : Machine := ⟨⟨#[pryingRoot]⟩, Scopes.root, .empty⟩

theorem prying_isolated : ∃ d m n,
    Run.call (fun _ value _ => .ok value) 2 "pry" [] default secretive = .failed d m ∧
    Run.call (fun _ value _ => .ok value) 2 "pry" [] default candid = .failed d n ∧
    d.fault = .undefinedName "hidden" ∧ Called secretive candid m n ∧ m.printed = "1\n" := by
  have hcandid : candid.Reachable (fun _ value _ => .ok value) := by
    obtain ⟨given, hgiven, hrun⟩ : ∃ given,
        initial.defineVariable "calls" (.ofLiteral (.integer 0)) = .ok given ∧
          (Work.methods [prying]).run (fun _ value _ => .ok value) 0 given = .done () candid :=
      ⟨_, rfl, rfl⟩
    exact .done (.given (.start .empty) hgiven) hrun
  have hsecretive : secretive.Reachable (fun _ value _ => .ok value) := by
    have hrun : (Work.execute (.declaration "hidden" none
        (some (.literal (.integer 7) none default)) none default)).run
        (fun _ value _ => .ok value) 0 (candid.enter Scopes.root) = .done .next secretive := rfl
    have hblock : (candid.enter Scopes.root).Reachable (fun _ value _ => .ok value) :=
      .stage (s := ⟨0, .execute (.conditional (.literal (.boolean true) none default) [] []
        default), candid⟩) hcandid (.branch rfl)
    exact .done hblock hrun
  have halike := hsecretive.call_isolated hcandid ⟨fun _ => rfl, fun _ _ => rfl⟩ 2 "pry" [] default
  obtain ⟨d, m, hleft, hfault, hprinted⟩ : ∃ d m, Run.call (fun _ value _ => .ok value) 2 "pry" []
    default secretive = .failed d m ∧ d.fault = .undefinedName "hidden" ∧ m.printed = "1\n" :=
      ⟨_, _, rfl, rfl, rfl⟩
  rw [hleft] at halike
  generalize Run.call _ 2 "pry" [] default candid = last at halike ⊢
  cases halike with
  | failed hcalled => exact ⟨d, m, _, hleft, rfl, hfault, hcalled, hprinted⟩

end Machine

end TeachLang
