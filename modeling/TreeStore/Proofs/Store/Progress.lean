import TreeStore.Proofs.Store.Numbering

/-!
# Sequential creation gets through

The name that a sequential creation is about to be given may be taken, because someone created a
node by that name. Then the creation fails, but the counter has moved on, and the next one asks for
another name. A node has only so many children, so that as many creations cannot all find their
names taken if there is one more of them than there are children.
-/

namespace TreeStore.Memory

/-- What a creation brings along besides its path. -/
structure Offer where
  /-- The payload. -/
  data : List UInt8
  /-- The access control list. -/
  acl : List Acl
  /-- The mode. -/
  mode : CreateMode

/-- The request to create the node at a path. -/
def Offer.request (path : String) (offer : Offer) : Request :=
  .call (.create path offer.data offer.acl offer.mode)

/-- A store numbers the nodes that are created in such a mode, and it can create them. -/
structure Offer.Allowed (m : Memory) (offer : Offer) : Prop where
  /-- The name gets a counter. -/
  sequential : offer.mode.isSequential = true
  /-- The store has containers if one is asked for. -/
  container : offer.mode.isContainer = true → m.containers = true

/-- One of the creations that are asked for one after the other is given a path that was free. -/
def Succeeds (m : Memory) (path : String) (offers : List Offer) : Prop :=
  ∃ before offer rest given, offers = before ++ offer :: rest ∧
    let now := m.run (before.map (Offer.request path))
    now.has given = false ∧ (now.handle (offer.request path)).2 = .ok (.str given) ∧
      (now.after (offer.request path)).has given = true

variable {m : Memory} {path : String} {parent : Node} {offer : Offer} {offers : List Offer}

/-- The counter of the parent stands behind the path, and if that is taken the counter moves on. -/
theorem handle_offer (hoffer : offer.Allowed m) (ho : m.closed = false)
    (hpath : Path.fault path true = none) (hparent : m.find? (Path.parent path) = some parent) :
    let given := numbered path parent.sequence
    m.has given = true ∧
        m.after (offer.request path) = m.modify (Path.parent path) Node.counted ∨
      m.has given = false ∧ (m.handle (offer.request path)).2 = .ok (.str given) ∧
        (m.after (offer.request path)).has given = true := by
  intro given
  have haccepts : m.Accepts path offer.mode parent :=
    ⟨by rw [hoffer.sequential]; exact hpath, hoffer.container, ho, hparent⟩
  have hcreate := create_of_accepts haccepts offer.data offer.acl
  have hhandle : m.handle (offer.request path) =
      ((m.create path offer.data offer.acl offer.mode).1,
        .of .str (m.create path offer.data offer.acl offer.mode).2) := rfl
  rw [counting, chosenPath, if_pos hoffer.sequential, if_pos hoffer.sequential, place, has_modify]
    at hcreate
  rw [after, hhandle]
  by_cases htaken : m.has given = true
  · rw [hcreate, if_pos htaken]
    exact .inl ⟨htaken, rfl⟩
  · rw [hcreate, if_neg htaken]
    exact .inr ⟨Bool.eq_false_iff.mpr htaken, rfl, by simp [has_attach, given]⟩

theorem Succeeds.cons (hnext : (m.after (offer.request path)).Succeeds path offers) :
    m.Succeeds path (offer :: offers) := by
  obtain ⟨before, later, rest, given, rfl, hsucceeds⟩ := hnext
  exact ⟨offer :: before, later, rest, given, rfl, hsucceeds⟩

/-- Unless one of the creations succeeds, the names for all of them are taken. -/
theorem succeeds_or_taken (hoffers : ∀ offer ∈ offers, offer.Allowed m) (ho : m.closed = false)
    (hpath : Path.fault path true = none) (hparent : m.find? (Path.parent path) = some parent) :
    m.Succeeds path offers ∨
      ∀ i < offers.length, m.has (numbered path (parent.sequence + i)) = true := by
  induction offers generalizing m parent with
  | nil => exact .inr fun i hi => absurd hi (Nat.not_lt_zero i)
  | cons offer rest ih =>
    obtain ⟨hoffer, hrest⟩ := List.forall_mem_cons.mp hoffers
    obtain ⟨htaken, hafter⟩ | ⟨hfree, hanswer, hadded⟩ := handle_offer hoffer ho hpath hparent
    · have hcounted : (m.modify (Path.parent path) Node.counted).find? (Path.parent path) =
          some parent.counted := by rw [find?_modify, if_pos rfl, hparent]; rfl
      have hallowed : ∀ offer ∈ rest, offer.Allowed (m.modify (Path.parent path) Node.counted) :=
        fun other hmem => ⟨(hrest other hmem).sequential, (hrest other hmem).container⟩
      obtain hlater | hall := ih hallowed ho hcounted
      · rw [← hafter] at hlater
        exact .inl hlater.cons
      · refine .inr fun i hi => ?_
        cases i with
        | zero => exact htaken
        | succ i =>
          have hlater := hall i (Nat.lt_of_succ_lt_succ hi)
          rw [has_modify, Node.counted, Nat.add_right_comm] at hlater
          exact hlater
    · exact .inl ⟨[], offer, rest, _, rfl, hfree, hanswer, hadded⟩

/-- The names with different counters behind them are different, however many digits these have. -/
theorem leaf_numbered_injective (hpath : Path.fault path true = none) :
    Function.Injective fun n => Path.leaf (numbered path n) := by
  intro n k he
  have hn : Numbering.Counts (Path.parent path) ⟨path, numbered path n⟩ n := ⟨hpath, rfl, rfl⟩
  have hk : Numbering.Counts (Path.parent path) ⟨path, numbered path k⟩ k := ⟨hpath, rfl, rfl⟩
  have hleaf := congrArg String.toList (hn.leaf_eq.symm.trans (he.trans hk.leaf_eq))
  rw [String.toList_append, String.toList_append, List.append_cancel_left_eq, String.toList_ofList,
    String.toList_ofList] at hleaf
  rw [← Digits.ofDecimal_padded counterWidth n, hleaf, Digits.ofDecimal_padded]

/-- No more names in a row are taken than the node has children. -/
theorem length_le_of_taken (hm : m.Consistent) (hpath : Path.fault path true = none)
    (hparent : m.find? (Path.parent path) = some parent) {first count : Nat}
    (htaken : ∀ i < count, m.has (numbered path (first + i)) = true) :
    count ≤ parent.children.length := by
  let names := (List.range count).map fun i => Path.leaf (numbered path (first + i))
  have hnodup : names.Nodup := by
    refine List.nodup_range.map fun i j he => ?_
    exact Nat.add_left_cancel (leaf_numbered_injective hpath he)
  have hsub : names ⊆ parent.children := by
    intro name hname
    obtain ⟨i, hi, rfl⟩ := List.mem_map.mp hname
    have hcounts : Numbering.Counts (Path.parent path) ⟨path, numbered path (first + i)⟩
        (first + i) := ⟨hpath, rfl, rfl⟩
    exact hcounts.mem_children hm hparent (htaken i (List.mem_range.mp hi))
  have hlength := hnodup.length_le_of_subset hsub
  rwa [List.length_map, List.length_range] at hlength

/-- Of more sequential creations at one path, one after the other, than the parent has children, one
succeeds, whoever took whichever names before. -/
theorem numbering_gets_through (hm : m.Reachable) (ho : m.closed = false)
    (hpath : Path.fault path true = none) (hparent : m.find? (Path.parent path) = some parent)
    (hoffers : ∀ offer ∈ offers, offer.Allowed m)
    (hmore : parent.children.length < offers.length) : m.Succeeds path offers := by
  obtain hsucceeds | htaken := succeeds_or_taken hoffers ho hpath hparent
  · exact hsucceeds
  · have hle := length_le_of_taken hm.consistent hpath hparent htaken
    exact absurd hmore (Nat.not_lt.mpr hle)

/-- Someone took the first two names below a node by hand, so that it takes a third creation. -/
theorem numbering_gets_through_third :
    let plain (path : String) : Request := .call (.create path [] [] .persistent)
    let m := ({} : Memory).run
      [plain "/q", plain "/q/job-0000000000", plain "/q/job-0000000001"]
    let offer : Offer := ⟨[1], [], .containerSequential⟩
    (∃ parent, m.find? "/q" = some parent ∧ parent.children.length = 2) ∧
      (m.handle (offer.request "/q/job-")).2.isOk = false ∧
      ((m.after (offer.request "/q/job-")).handle (offer.request "/q/job-")).2.isOk = false ∧
      m.Succeeds "/q/job-" [offer, offer, offer] := by
  intro plain m offer
  have hreachable : m.Reachable := ⟨true, _, rfl⟩
  have hfind : (m.find? "/q").any (fun parent => parent.children.length = 2) = true := by
    decide +kernel
  obtain ⟨parent, hfound, htwo⟩ := (Option.any_eq_true _ _).mp hfind
  replace htwo : parent.children.length = 2 := of_decide_eq_true htwo
  have habove : m.find? (Path.parent "/q/job-") = some parent := by
    rw [Path.parent]
    exact hfound
  have hcontainers : m.containers = true := by decide +kernel
  have hallowed : ∀ other ∈ [offer, offer, offer], other.Allowed m := by
    intro other hmem
    obtain rfl : other = offer := by simpa using hmem
    exact ⟨rfl, fun _ => hcontainers⟩
  refine ⟨⟨parent, hfound, htwo⟩, by decide +kernel, by decide +kernel, ?_⟩
  refine numbering_gets_through hreachable (by decide +kernel) (by decide) habove hallowed ?_
  rw [htwo]
  decide

end TreeStore.Memory
