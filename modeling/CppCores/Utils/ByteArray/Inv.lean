import CppCores.Utils.ByteArray.Model

/-!
# ByteArray: what `write` and `read` do to the bytes

`Sound` says how position, size, capacity, chain and current node hang together, `Good` adds that
every node has room for `m_baseSize` bytes.

* `writeLoop_spec`, `readLoop_spec`   the loops overwrite, or copy out, bytes of the rest of the
                                      chain and stop at the node of the new position;
* `addCapacity_eq`                    the chain grows by the nodes that are missing, none is lost to
                                      the rounding of the quotient;
* `write_spec`, `read_spec`, `clear_spec`   the calls.
-/

set_option linter.unusedSectionVars false

namespace CppCores
namespace Bytes

/-- how the fields of a `ByteArray` hang together: `m_cur` is the node that contains `m_position`,
null exactly if `m_position` is `m_capacity` -/
structure Sound (s : ByteArray) : Prop where
  position_le : s.m_position ≤ s.m_size
  size_le : s.m_size ≤ s.m_capacity
  capacity : s.m_capacity = s.m_baseSize * s.nodes.length
  cur : s.m_cur = if s.m_position = s.m_capacity then none else some (s.m_position / s.m_baseSize)

/-- a node with room for `b` bytes -/
structure Node.Full (b : ℕ) (n : Node) : Prop where
  size : n.size = b
  length : n.ptr.length = b

structure Good (s : ByteArray) : Prop where
  base : 0 < s.m_baseSize
  nodes : ∀ n ∈ s.nodes, n.Full s.m_baseSize
  nonempty : s.nodes ≠ []
  sound : Sound s

section
variable {b : ℕ}

theorem Node.full_new (b : ℕ) : (Node.new b).Full b := ⟨rfl, List.length_replicate⟩

theorem Node.Full.copyIn {n : Node} (h : n.Full b) {npos : ℕ} {src : List UInt8}
    (hle : npos + src.length ≤ b) : (n.copyIn npos src).Full b := by
  refine ⟨h.size, ?_⟩
  unfold Node.copyIn
  rw [length_patch (by rw [List.length_map, h.length]; exact hle), h.length]

theorem blocks_of_full {l : List Node} (h : ∀ n ∈ l, n.Full b) : Blocks b (l.map Node.ptr) := by
  intro x hx
  obtain ⟨n, hn, rfl⟩ := List.mem_map.mp hx
  exact (h n hn).length

/-- the bytes of a chain -/
def flat (l : List Node) : List (Option UInt8) := (l.map Node.ptr).flatten

@[simp] theorem flat_nil : flat [] = [] := rfl

@[simp] theorem flat_cons (n : Node) (l : List Node) : flat (n :: l) = n.ptr ++ flat l := rfl

@[simp] theorem flat_append (l m : List Node) : flat (l ++ m) = flat l ++ flat m := by
  unfold flat
  rw [List.map_append, List.flatten_append]

theorem length_flat {l : List Node} (h : ∀ n ∈ l, n.Full b) : (flat l).length = b * l.length := by
  unfold flat
  rw [(blocks_of_full h).length_flatten, List.length_map]

/-- full nodes with the same bytes are the same -/
theorem eq_of_flat {l m : List Node} (hl : ∀ n ∈ l, n.Full b) (hm : ∀ n ∈ m, n.Full b)
    (hlen : l.length = m.length) (h : flat l = flat m) : l = m := by
  have hptr := (blocks_of_full hl).flatten_inj (blocks_of_full hm) (by simpa using hlen) h
  have hnode : ∀ k : List Node, (∀ n ∈ k, n.Full b) →
      (k.map Node.ptr).map (fun p => (⟨p, b⟩ : Node)) = k := by
    intro k hk
    rw [List.map_map]
    conv_rhs => rw [← List.map_id k]
    apply List.map_congr_left
    intro n hn
    obtain ⟨p, sz⟩ := n
    have := (hk _ hn).size
    subst this
    rfl
  rw [← hnode l hl, ← hnode m hm, hptr]

/-! ## the loops -/

/-- where `m_cur` stands after `size` bytes inside one node -/
theorem moved_within {npos size : ℕ} (hb : 0 < b) (h : npos + size ≤ b) :
    (if b = npos + size then 1 else 0) = (npos + size) / b := by
  by_cases he : b = npos + size
  · rw [if_pos he, ← he, Nat.div_self hb]
  · rw [if_neg he, Nat.div_eq_of_lt (by omega)]

theorem moved_across {npos size : ℕ} (hb : 0 < b) (hp : npos ≤ b) (h : b - npos < size) :
    (0 + (size - (b - npos))) / b + 1 = (npos + size) / b := by
  have he : npos + size = (0 + (size - (b - npos))) + b := by omega
  rw [he, Nat.add_div_right _ hb]

/-- **`readLoop` copies the bytes from `npos` on.** -/
theorem readLoop_spec (hb : 0 < b) {rest : List Node} {node : Node} {npos size : ℕ}
    (hn : ∀ n ∈ node :: rest, n.Full b) (hp : npos < b)
    (hs : npos + size ≤ b * (rest.length + 1)) :
    ByteArray.readLoop rest node npos (b - npos) size =
      some (((flat (node :: rest)).drop npos).take size, (npos + size) / b) := by
  induction rest generalizing node npos size with
  | nil =>
    have hnode := hn node List.mem_cons_self
    unfold ByteArray.readLoop
    by_cases h0 : size = 0
    · rw [if_pos h0, h0, Nat.add_zero, List.take_zero, Nat.div_eq_of_lt hp]
    · have hle : b - npos ≥ size := by
        rw [List.length_nil, Nat.zero_add, Nat.mul_one] at hs
        omega
      rw [if_neg h0, if_pos hle, hnode.size, moved_within hb (by omega)]
      simp [Node.copyOut]
  | cons next rest ih =>
    have hnode := hn node List.mem_cons_self
    have hnext := hn next (List.mem_cons_of_mem _ List.mem_cons_self)
    unfold ByteArray.readLoop
    by_cases h0 : size = 0
    · rw [if_pos h0, h0, Nat.add_zero, List.take_zero, Nat.div_eq_of_lt hp]
    rw [if_neg h0]
    by_cases hle : b - npos ≥ size
    · rw [if_pos hle, hnode.size, moved_within hb (by omega), flat_cons,
        List.drop_append_of_le_length (by rw [hnode.length]; omega),
        List.take_append_of_le_length (by rw [List.length_drop, hnode.length]; exact hle)]
      rfl
    · rw [if_neg hle]
      have hlt : b - npos < size := Nat.lt_of_not_le hle
      have hs' : 0 + (size - (b - npos)) ≤ b * (rest.length + 1) := by
        rw [List.length_cons, Nat.mul_succ] at hs
        omega
      have hrec := ih (fun n hn' => hn n (List.mem_cons_of_mem _ hn')) hb hs'
      rw [Nat.sub_zero] at hrec
      show (ByteArray.readLoop rest next 0 next.size (size - (b - npos))).map _ = _
      rw [hnext.size, hrec, Option.map_some, moved_across hb (Nat.le_of_lt hp) hlt]
      have hlen : (node.ptr.drop npos).length = b - npos := by
        rw [List.length_drop, hnode.length]
      have h1 : (node.ptr.drop npos).take (b - npos) = node.ptr.drop npos :=
        List.take_of_length_le (Nat.le_of_eq hlen)
      have h2 : (node.ptr.drop npos).take size = node.ptr.drop npos :=
        List.take_of_length_le (by rw [hlen]; exact Nat.le_of_lt hlt)
      rw [flat_cons node, List.drop_append_of_le_length (by rw [hnode.length]; omega),
        List.take_append, hlen, h2, List.drop_zero]
      unfold Node.copyOut
      rw [h1]

theorem copyIn_head {rest : List Node} {node : Node} {npos : ℕ} {buf : List UInt8}
    (hn : ∀ n ∈ node :: rest, n.Full b) (hp : npos < b) (hle : buf.length ≤ b - npos) :
    (∀ n ∈ node.copyIn npos buf :: rest, n.Full b) ∧
      flat (node.copyIn npos buf :: rest) = patch (flat (node :: rest)) npos (buf.map some) := by
  have hnode := hn node List.mem_cons_self
  constructor
  · intro n hn'
    rcases List.mem_cons.mp hn' with rfl | hn'
    · exact hnode.copyIn (by omega)
    · exact hn n (List.mem_cons_of_mem _ hn')
  · rw [flat_cons, flat_cons, patch_left _ (by rw [List.length_map, hnode.length]; omega)]
    rfl

/-- **`writeLoop` overwrites the bytes from `npos` on.** -/
theorem writeLoop_spec (hb : 0 < b) {rest : List Node} {node : Node} {npos : ℕ} {buf : List UInt8}
    (hn : ∀ n ∈ node :: rest, n.Full b) (hp : npos < b)
    (hs : npos + buf.length ≤ b * (rest.length + 1)) :
    ∃ nodes, ByteArray.writeLoop rest node npos (b - npos) buf =
        some (nodes, (npos + buf.length) / b) ∧
      (∀ n ∈ nodes, n.Full b) ∧ nodes.length = rest.length + 1 ∧
      flat nodes = patch (flat (node :: rest)) npos (buf.map some) := by
  induction rest generalizing node npos buf with
  | nil =>
    have hnode := hn node List.mem_cons_self
    rw [List.length_nil, Nat.zero_add, Nat.mul_one] at hs
    unfold ByteArray.writeLoop
    by_cases h0 : buf.length = 0
    · refine ⟨[node], ?_, hn, rfl, ?_⟩
      · rw [if_pos h0, h0, Nat.add_zero, Nat.div_eq_of_lt hp]
      · rw [List.length_eq_zero_iff.mp h0, List.map_nil, patch_nil]
    · have hle : b - npos ≥ buf.length := by omega
      obtain ⟨h1, h2⟩ := copyIn_head hn hp hle
      refine ⟨[node.copyIn npos buf], ?_, h1, rfl, h2⟩
      rw [if_neg h0, if_pos hle, hnode.size, moved_within hb hs]
  | cons next rest ih =>
    have hnode := hn node List.mem_cons_self
    have hnext := hn next (List.mem_cons_of_mem _ List.mem_cons_self)
    unfold ByteArray.writeLoop
    by_cases h0 : buf.length = 0
    · refine ⟨node :: next :: rest, ?_, hn, rfl, ?_⟩
      · rw [if_pos h0, h0, Nat.add_zero, Nat.div_eq_of_lt hp]
      · rw [List.length_eq_zero_iff.mp h0, List.map_nil, patch_nil]
    rw [if_neg h0]
    by_cases hle : b - npos ≥ buf.length
    · obtain ⟨h1, h2⟩ := copyIn_head hn hp hle
      refine ⟨node.copyIn npos buf :: next :: rest, ?_, h1, rfl, h2⟩
      rw [if_pos hle, hnode.size, moved_within hb (by omega)]
    · have hlt : b - npos < buf.length := Nat.lt_of_not_le hle
      have hdrop : (buf.drop (b - npos)).length = buf.length - (b - npos) := List.length_drop
      have htake : (buf.take (b - npos)).length = b - npos := by
        rw [List.length_take]
        omega
      have hs' : 0 + (buf.drop (b - npos)).length ≤ b * (rest.length + 1) := by
        rw [List.length_cons, Nat.mul_succ] at hs
        omega
      obtain ⟨nodes, hrec, h1, h2, h3⟩ :=
        ih (fun n hn' => hn n (List.mem_cons_of_mem _ hn')) hb hs'
      rw [Nat.sub_zero] at hrec
      refine ⟨node.copyIn npos (buf.take (b - npos)) :: nodes, ?_, fun n hn' => ?_, ?_, ?_⟩
      · rw [if_neg hle]
        show (ByteArray.writeLoop rest next 0 next.size (buf.drop (b - npos))).map _ = _
        rw [hnext.size, hrec, Option.map_some, hdrop, moved_across hb (Nat.le_of_lt hp) hlt]
      · rcases List.mem_cons.mp hn' with rfl | hn'
        · exact hnode.copyIn (by omega)
        · exact h1 n hn'
      · rw [List.length_cons, h2, List.length_cons]
      · -- the node is filled, the rest goes on at the front of the next one
        have hlen : node.ptr.length - npos = b - npos := by rw [hnode.length]
        rw [flat_cons, h3, flat_cons node, patch_across _ (by rw [hnode.length]; omega)
          (by rw [hlen, List.length_map]; exact Nat.le_of_lt hlt), hlen, ← List.map_take,
          ← List.map_drop]
        rfl

theorem drop_node {nodes : List Node} {pos : ℕ} (h : pos < b * nodes.length) :
    ∃ node rest, nodes.drop (pos / b) = node :: rest ∧ pos / b + (rest.length + 1) = nodes.length := by
  have hlt : pos / b < nodes.length := Nat.div_lt_of_lt_mul h
  refine ⟨nodes[pos / b], nodes.drop (pos / b + 1), List.drop_eq_getElem_cons hlt, ?_⟩
  rw [List.length_drop]
  omega

end

/-! ## growing -/

section
variable {s : ByteArray} {size : ℕ}

theorem nodeCount_eq {size base : ℕ} (hb : 0 < base) (hs : size < 2 ^ 53) (hb' : base < 2 ^ 53) :
    ByteArray.nodeCount size base = (size + base - 1) / base := by
  unfold ByteArray.nodeCount
  rw [fl_natCast hs, fl_natCast hb', ceil_fl_div hs hb]

/-- the number of nodes that the chain lacks for `size` more bytes -/
def missing (s : ByteArray) (size : ℕ) : ℕ :=
  (size - s.getCapacity + s.m_baseSize - 1) / s.m_baseSize

theorem le_mul_ceil {b : ℕ} (hb : 0 < b) (n : ℕ) : n ≤ b * ((n + b - 1) / b) := by
  have h1 := Nat.div_add_mod (n + b - 1) b
  have h2 := Nat.mod_lt (n + b - 1) hb
  omega

theorem missing_eq_zero (hb : 0 < s.m_baseSize) (h : size ≤ s.getCapacity) : missing s size = 0 := by
  unfold missing
  rw [Nat.sub_eq_zero_of_le h, Nat.zero_add]
  exact Nat.div_eq_of_lt (by omega)

theorem appendNodes_eq (s : ByteArray) (count : ℕ) :
    s.appendNodes count = { s with
      nodes := s.nodes ++ List.replicate count (.new s.m_baseSize)
      m_capacity := s.m_capacity + s.m_baseSize * count } := by
  induction count generalizing s with
  | zero => simp [ByteArray.appendNodes]
  | succ n ih =>
    unfold ByteArray.appendNodes
    rw [ih]
    simp only [List.append_assoc, List.singleton_append, ← List.replicate_succ, Nat.mul_succ,
      Nat.add_assoc, Nat.add_comm s.m_baseSize]

/-- the chain after `addCapacity`, with `m_cur` at the node of the position -/
def grown (s : ByteArray) (size : ℕ) : ByteArray :=
  { s with
    nodes := s.nodes ++ List.replicate (missing s size) (.new s.m_baseSize)
    m_capacity := s.m_capacity + s.m_baseSize * missing s size
    m_cur := some (s.m_position / s.m_baseSize) }

theorem Good.base_le (h : Good s) : s.m_baseSize ≤ s.m_capacity := by
  rw [h.sound.capacity]
  exact Nat.le_mul_of_pos_right _ (List.length_pos_iff.mpr h.nonempty)

theorem Good.position_le_capacity (h : Good s) : s.m_position ≤ s.m_capacity :=
  Nat.le_trans h.sound.position_le h.sound.size_le

/-- **`addCapacity` appends the nodes that are missing.** -/
theorem addCapacity_eq (h : Good s) (h0 : 0 < size) (hs : s.m_position + size < 2 ^ 53) :
    s.addCapacity size = grown s size := by
  have hpos := h.position_le_capacity
  have hcur := h.sound.cur
  unfold ByteArray.addCapacity
  rw [if_neg (Nat.ne_of_gt h0)]
  by_cases hge : s.getCapacity ≥ size
  · have hne : s.m_position ≠ s.m_capacity := by
      unfold ByteArray.getCapacity at hge
      omega
    rw [if_neg hne] at hcur
    simp only [if_pos hge]
    unfold grown
    rw [missing_eq_zero h.base hge, ← hcur, List.replicate_zero, List.append_nil, Nat.mul_zero,
      Nat.add_zero]
  · simp only [if_neg hge]
    have hlt : s.getCapacity < size := Nat.lt_of_not_le hge
    have hb : s.m_baseSize < 2 ^ 53 := by
      have h1 := h.base_le
      unfold ByteArray.getCapacity at hlt
      omega
    have hcount : ByteArray.nodeCount (size - s.getCapacity) s.m_baseSize = missing s size :=
      nodeCount_eq h.base (by omega) hb
    have hpos' : missing s size ≠ 0 := by
      have h1 := le_mul_ceil h.base (size - s.getCapacity)
      intro e
      unfold missing at e
      rw [e] at h1
      omega
    rw [hcount, if_neg hpos', appendNodes_eq]
    by_cases hc : s.getCapacity = 0
    · -- the position is at the end, which is where the new nodes begin
      rw [if_pos hc]
      unfold grown
      have he : s.m_position = s.m_baseSize * s.nodes.length := by
        rw [← h.sound.capacity]
        unfold ByteArray.getCapacity at hc
        omega
      rw [he, Nat.mul_div_cancel_left _ h.base]
    · rw [if_neg hc]
      have hne : s.m_position ≠ s.m_capacity := by
        unfold ByteArray.getCapacity at hc
        omega
      rw [if_neg hne] at hcur
      unfold grown
      rw [← hcur]

theorem le_grown (h : Good s) (size : ℕ) : s.m_position + size ≤ (grown s size).m_capacity := by
  have h1 := le_mul_ceil h.base (size - s.getCapacity)
  have h2 := h.position_le_capacity
  show s.m_position + size ≤ s.m_capacity + s.m_baseSize * missing s size
  unfold missing
  unfold ByteArray.getCapacity at h1 ⊢
  omega

theorem grown_nodes (h : Good s) (size : ℕ) :
    ∀ n ∈ (grown s size).nodes, n.Full s.m_baseSize := by
  intro n hn
  rcases List.mem_append.mp hn with hn | hn
  · exact h.nodes n hn
  · rw [List.eq_of_mem_replicate hn]
    exact Node.full_new _

theorem length_grown (s : ByteArray) (size : ℕ) :
    (grown s size).nodes.length = s.nodes.length + missing s size := by
  show (s.nodes ++ List.replicate _ _).length = _
  rw [List.length_append, List.length_replicate]

theorem grown_capacity (h : Good s) (size : ℕ) :
    (grown s size).m_capacity = s.m_baseSize * (grown s size).nodes.length := by
  rw [length_grown, Nat.mul_add, ← h.sound.capacity]
  rfl

theorem flat_replicate_new (k b : ℕ) :
    flat (List.replicate k (.new b)) = List.replicate (b * k) none := by
  induction k with
  | zero => rfl
  | succ k ih =>
    rw [List.replicate_succ, flat_cons, ih, Nat.mul_succ, Nat.add_comm, List.replicate_add]
    rfl

theorem flat_grown (s : ByteArray) (size : ℕ) : flat (grown s size).nodes =
    flat s.nodes ++ List.replicate (s.m_baseSize * missing s size) none := by
  show flat (s.nodes ++ _) = _
  rw [flat_append, flat_replicate_new]

/-! ## the calls -/

theorem nodeAt_eq {s : ByteArray} {pos : ℕ} (hb : 0 < s.m_baseSize)
    (hc : s.m_capacity = s.m_baseSize * s.nodes.length) (hp : pos ≤ s.m_capacity) :
    s.nodeAt (pos / s.m_baseSize) =
      if pos = s.m_capacity then none else some (pos / s.m_baseSize) := by
  unfold ByteArray.nodeAt
  by_cases he : pos = s.m_capacity
  · rw [if_pos he, he, hc, Nat.mul_div_cancel_left _ hb, if_neg (Nat.lt_irrefl _)]
  · rw [if_neg he, if_pos]
    exact Nat.div_lt_of_lt_mul (by omega)

/-- the chain after a `write`: the nodes before the position stay, those from it on come from the
loop -/
theorem write_nodes (h : Good s) {buf : List UInt8} (hbuf : buf ≠ []) :
    ∃ node rest nodes,
      (grown s buf.length).nodes.drop (s.m_position / s.m_baseSize) = node :: rest ∧
      node.size = s.m_baseSize ∧
      ByteArray.writeLoop rest node (s.m_position % s.m_baseSize)
        (s.m_baseSize - s.m_position % s.m_baseSize) buf =
        some (nodes, (s.m_position % s.m_baseSize + buf.length) / s.m_baseSize) ∧
      (∀ n ∈ nodes, n.Full s.m_baseSize) ∧
      ((grown s buf.length).nodes.take (s.m_position / s.m_baseSize) ++ nodes).length =
        (grown s buf.length).nodes.length ∧
      flat ((grown s buf.length).nodes.take (s.m_position / s.m_baseSize) ++ nodes) =
        patch (flat (grown s buf.length).nodes) s.m_position (buf.map some) := by
  have hlen : 0 < buf.length := List.length_pos_iff.mpr hbuf
  have hb := h.base
  set b := s.m_baseSize with hbdef
  set g := grown s buf.length with hg
  have hroom : s.m_position + buf.length ≤ g.m_capacity := le_grown h buf.length
  have hcap : g.m_capacity = b * g.nodes.length := grown_capacity h buf.length
  have hfull : ∀ n ∈ g.nodes, n.Full b := grown_nodes h buf.length
  obtain ⟨node, rest, hdrop, hrest⟩ := @drop_node b g.nodes s.m_position (by omega)
  have hpos := Nat.div_add_mod s.m_position b
  have hsuf : ∀ n ∈ node :: rest, n.Full b := by
    intro n hn
    rw [← hdrop] at hn
    exact hfull n (List.mem_of_mem_drop hn)
  have hfit : s.m_position % b + buf.length ≤ b * (rest.length + 1) := by
    rw [hcap, ← hrest, Nat.mul_add] at hroom
    omega
  obtain ⟨nodes, hloop, hn1, hn2, hn3⟩ := writeLoop_spec hb hsuf (Nat.mod_lt s.m_position hb) hfit
  refine ⟨node, rest, nodes, hdrop, (hsuf node List.mem_cons_self).size, hloop, hn1, ?_, ?_⟩
  · rw [List.length_append, List.length_take, hn2]
    omega
  · have htake : (flat (g.nodes.take (s.m_position / b))).length = b * (s.m_position / b) := by
      rw [length_flat fun n hn => hfull n (List.mem_of_mem_take hn), List.length_take,
        Nat.min_eq_left (by omega)]
    rw [flat_append, hn3, ← hdrop, ← patch_right, htake, hpos, ← flat_append,
      List.take_append_drop]

/-- the state after a `write`, up to the nodes that it has overwritten -/
theorem write_eq (h : Good s) {buf : List UInt8} (hbuf : buf ≠ [])
    (hs : s.m_position + buf.length < 2 ^ 53) :
    ∃ nodes, (∀ n ∈ nodes, n.Full s.m_baseSize) ∧
      nodes.length = (grown s buf.length).nodes.length ∧
      flat nodes = patch (flat (grown s buf.length).nodes) s.m_position (buf.map some) ∧
      s.write buf = (.done [],
        { grown s buf.length with
          nodes := nodes
          m_cur := (grown s buf.length).nodeAt ((s.m_position + buf.length) / s.m_baseSize)
          m_position := s.m_position + buf.length
          m_size := max s.m_size (s.m_position + buf.length) }) := by
  have hlen : 0 < buf.length := List.length_pos_iff.mpr hbuf
  obtain ⟨node, rest, nodes, hdrop, hsize, hloop, hfull, hcount, hflat⟩ := write_nodes h hbuf
  have hmoved : s.m_position / s.m_baseSize +
      (s.m_position % s.m_baseSize + buf.length) / s.m_baseSize =
      (s.m_position + buf.length) / s.m_baseSize := by
    conv_rhs => rw [← Nat.div_add_mod s.m_position s.m_baseSize, Nat.add_assoc,
      Nat.mul_add_div h.base]
  have hmax : (if s.m_position + buf.length > s.m_size then s.m_position + buf.length
      else s.m_size) = max s.m_size (s.m_position + buf.length) := by
    by_cases hgt : s.m_position + buf.length > s.m_size
    · rw [if_pos hgt, Nat.max_eq_right (Nat.le_of_lt hgt)]
    · rw [if_neg hgt, Nat.max_eq_left (Nat.le_of_not_lt hgt)]
  refine ⟨_, ?_, hcount, hflat, ?_⟩
  · intro n hn
    rcases List.mem_append.mp hn with hn | hn
    · exact grown_nodes h buf.length n (List.mem_of_mem_take hn)
    · exact hfull n hn
  · unfold ByteArray.write
    rw [if_neg (Nat.ne_of_gt hlen), addCapacity_eq h hlen hs]
    have hloop' : ByteArray.writeLoop rest node ((grown s buf.length).m_position %
        (grown s buf.length).m_baseSize) (node.size - (grown s buf.length).m_position %
        (grown s buf.length).m_baseSize) buf =
        some (nodes, (s.m_position % s.m_baseSize + buf.length) / s.m_baseSize) := by
      rw [hsize]
      exact hloop
    simp only [show (grown s buf.length).m_cur = some (s.m_position / s.m_baseSize) from rfl,
      hdrop, hloop']
    rw [hmoved, ← hmax]
    rfl

/-- **`write` overwrites the bytes from the position on**, in a chain that has room for them. -/
theorem write_spec (h : Good s) {buf : List UInt8} (hbuf : buf ≠ [])
    (hs : s.m_position + buf.length < 2 ^ 53) :
    (s.write buf).1 = .done [] ∧ Good (s.write buf).2 ∧
      (s.write buf).2.m_baseSize = s.m_baseSize ∧
      (s.write buf).2.m_position = s.m_position + buf.length ∧
      (s.write buf).2.m_size = max s.m_size (s.m_position + buf.length) ∧
      (s.write buf).2.nodes.length = s.nodes.length + missing s buf.length ∧
      flat (s.write buf).2.nodes = patch (flat s.nodes ++
        List.replicate (s.m_baseSize * missing s buf.length) none) s.m_position (buf.map some) := by
  obtain ⟨nodes, hfull, hcount, hflat, hw⟩ := write_eq h hbuf hs
  have hroom := le_grown h buf.length
  have hcap := grown_capacity h buf.length
  rw [length_grown] at hcount
  rw [flat_grown] at hflat
  rw [hw]
  refine ⟨rfl, ⟨h.base, hfull, ?_, ?_, ?_, ?_, ?_⟩, rfl, rfl, rfl, hcount, hflat⟩
  · intro e
    have hpos := List.length_pos_iff.mpr h.nonempty
    have hzero := congrArg List.length e
    rw [hcount, List.length_nil] at hzero
    omega
  · exact Nat.le_max_right _ _
  · refine Nat.max_le.mpr ⟨Nat.le_trans h.sound.size_le ?_, hroom⟩
    exact Nat.le_add_right _ _
  · show (grown s buf.length).m_capacity = s.m_baseSize * nodes.length
    rw [hcap, hcount, length_grown]
  · exact @nodeAt_eq (grown s buf.length) _ h.base hcap hroom

/-- **`read` returns the bytes from the position on**, if there are as many. -/
theorem read_spec (h : Good s) (hs : size ≤ s.m_size - s.m_position)
    (h0 : size = 0 → s.m_position ≠ s.m_capacity) :
    (s.read size).1 = .done (((flat s.nodes).drop s.m_position).take size) ∧
      Good (s.read size).2 ∧ (s.read size).2.m_baseSize = s.m_baseSize ∧
      (s.read size).2.m_position = s.m_position + size ∧ (s.read size).2.m_size = s.m_size ∧
      (s.read size).2.nodes = s.nodes := by
  have hb := h.base
  have hsz := h.sound.size_le
  have hposle := h.sound.position_le
  have hcap := h.sound.capacity
  have hcur := h.sound.cur
  have hlt : s.m_position < s.m_capacity := by
    by_cases e : size = 0
    · have := h0 e
      omega
    · omega
  set b := s.m_baseSize with hbdef
  rw [if_neg (Nat.ne_of_lt hlt)] at hcur
  obtain ⟨node, rest, hdrop, hrest⟩ := @drop_node b s.nodes s.m_position
    (by omega)
  have hpos := Nat.div_add_mod s.m_position b
  have hnp := Nat.mod_lt s.m_position hb
  have hsuf : ∀ n ∈ node :: rest, n.Full b := by
    intro n hn
    rw [← hdrop] at hn
    exact h.nodes n (List.mem_of_mem_drop hn)
  have hfit : s.m_position % b + size ≤ b * (rest.length + 1) := by
    rw [hcap, ← hrest, Nat.mul_add] at hsz
    omega
  have hloop := readLoop_spec hb hsuf hnp hfit
  have hmoved : s.m_position / b + (s.m_position % b + size) / b =
      (s.m_position + size) / b := by
    conv_rhs => rw [← hpos, Nat.add_assoc, Nat.mul_add_div hb]
  have hbytes : (flat (node :: rest)).drop (s.m_position % b) = (flat s.nodes).drop s.m_position := by
    have htake : (flat (s.nodes.take (s.m_position / b))).length = b * (s.m_position / b) := by
      rw [length_flat fun n hn => h.nodes n (List.mem_of_mem_take hn), List.length_take,
        Nat.min_eq_left (by omega)]
    have hsplit : flat s.nodes = flat (s.nodes.take (s.m_position / b)) ++ flat (node :: rest) := by
      rw [← hdrop, ← flat_append, List.take_append_drop]
    have hpos' : s.m_position =
        (flat (s.nodes.take (s.m_position / b))).length + s.m_position % b := by rw [htake, hpos]
    conv_rhs => rw [hpos', hsplit, List.drop_length_add_append]
  have hr : s.read size = (.done (((flat s.nodes).drop s.m_position).take size),
      { s with
        m_position := s.m_position + size
        m_cur := s.nodeAt ((s.m_position + size) / b) }) := by
    unfold ByteArray.read
    rw [if_neg (by unfold ByteArray.getReadSize; omega), hcur]
    have hsize := (hsuf node List.mem_cons_self).size
    simp only [hdrop, ← hbdef, hsize, hloop, hmoved, hbytes]
  rw [hr]
  refine ⟨rfl, ⟨hb, h.nodes, h.nonempty, ?_, hsz, hcap, ?_⟩, rfl, rfl, rfl, rfl⟩
  · show s.m_position + size ≤ s.m_size
    omega
  · exact @nodeAt_eq s _ hb hcap (by omega)

theorem read_refused (hs : size > s.m_size - s.m_position) :
    s.read size = (.out_of_range, s) := by
  have hs' : size > s.getReadSize := hs
  unfold ByteArray.read
  rw [if_pos hs']

/-- a read of 0 bytes with the position at the end of the chain -/
theorem read_zero_at_end (h : Sound s) (he : s.m_position = s.m_capacity) :
    s.read 0 = (.null_deref, s) := by
  have hcur := h.cur
  rw [if_pos he] at hcur
  unfold ByteArray.read
  rw [if_neg (Nat.not_lt_zero _), hcur]

/-- `clear` is right if nothing was written -/
theorem clear_spec (h : Good s) (h0 : s.m_size = 0) : Good s.clear := by
  obtain ⟨n, l, hl⟩ := List.exists_cons_of_ne_nil h.nonempty
  have ht : s.nodes.take 1 = [n] := by rw [hl]; rfl
  have hb := h.base
  refine ⟨hb, fun m hm => h.nodes m (List.mem_of_mem_take hm), ?_, Nat.zero_le _, ?_, ?_, ?_⟩
  · show s.nodes.take 1 ≠ []
    rw [ht]
    exact List.cons_ne_nil _ _
  · show s.m_size ≤ s.m_baseSize
    omega
  · show s.m_baseSize = s.m_baseSize * (s.nodes.take 1).length
    rw [ht, List.length_singleton, Nat.mul_one]
  · show some 0 = if 0 = s.m_baseSize then none else some (0 / s.m_baseSize)
    rw [if_neg (Nat.ne_of_lt hb), Nat.zero_div]

theorem new_good {b : ℕ} (hb : 0 < b) : Good (.new b) := by
  refine ⟨hb, fun n hn => ?_, List.cons_ne_nil _ _, Nat.le_refl _, Nat.zero_le _, (Nat.mul_one b).symm,
    ?_⟩
  · rw [List.mem_singleton.mp hn]
    exact Node.full_new b
  · show some 0 = if 0 = b then none else some (0 / b)
    rw [if_neg (Nat.ne_of_lt hb), Nat.zero_div]

end
end Bytes
end CppCores
