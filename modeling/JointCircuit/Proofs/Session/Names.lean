import JointCircuit.Proofs.Compiled.Stages
import JointCircuit.Proofs.Session.History

/-!
# Names of parties

A session knows the parties by their indices, and messages come under names.  As the
parties have names of their own, a name is that of one peer at most, and `peerNamed?` finds
it (`Session.peerNamed?_eq_some_iff`).
-/

namespace JointCircuit

namespace Session

theorem nameOf_congr {s s' : Session} (hc : s'.compiled = s.compiled) : s'.nameOf = s.nameOf := by
  funext index
  rw [nameOf, nameOf, names, names, hc]

theorem peerNamed?_congr {s s' : Session} (hc : s'.compiled = s.compiled)
    (hp : s'.party = s.party) (name : String) : s'.peerNamed? name = s.peerNamed? name := by
  rw [peerNamed?, peerNamed?, hc, hp]

theorem nameOf_partyIndex? {s : Session} {name : String} {index : Nat}
    (h : s.compiled.partyIndex? name = some index) : s.nameOf index = name := by
  rw [Compiled.partyIndex?, partyIndex?, List.findIdx?_eq_some_iff_getElem] at h
  obtain ⟨hlt, hname, _⟩ := h
  rw [nameOf, names, List.getD_eq_getElem?_getD, List.getElem?_map, List.getElem?_eq_getElem hlt]
  exact beq_iff_eq.mp hname

/-- A peer is found under its name only. -/
theorem nameOf_peerNamed? {s : Session} {name : String} {peer : Nat}
    (h : s.peerNamed? name = some peer) : s.nameOf peer = name := by
  rw [peerNamed?] at h
  split at h
  · rename_i index hindex
    split at h
    · cases h
    · cases h
      exact nameOf_partyIndex? hindex
  · cases h

variable {s : Session}

theorem getElem?_names {index : Nat} (h : index < s.compiled.parties.length) :
    (s.compiled.parties.map Party.name)[index]? = some (s.nameOf index) := by
  rw [nameOf, names, List.getD_eq_getElem?_getD, List.getElem?_map, List.getElem?_eq_getElem h]
  rfl

theorem nameOf_inj (hnames : (s.compiled.parties.map Party.name).Nodup) {p q : Nat}
    (hp : p < s.compiled.parties.length) (hq : q < s.compiled.parties.length)
    (h : s.nameOf p = s.nameOf q) : p = q := by
  refine (List.getElem?_inj (by rwa [List.length_map]) hnames).mp ?_
  rw [getElem?_names hp, getElem?_names hq, h]

end Session

end JointCircuit
