import Svr42.StreamRuns

/-! `insq`, which puts a message before another one or at the end of the queue, and the places at
which it is right to. -/

namespace Svr42.Strm
open Function List Nat Option

def State.Orderly (st : State) (pre post : List Nat) (m : Msg) : Prop :=
  (∀ a ∈ pre, m.norm.cls ≤ (st.msg a).cls) ∧ ∀ a ∈ post, (st.msg a).cls ≤ m.norm.cls

section

variable {avail : Nat → Bool} {st : State} {pre post : List Nat} {emp : Option Nat} {mp : Nat}
  {m : Msg}

variable {a : Nat}

def State.missing (st : State) (m : Msg) : Nat := m.norm.bBand - st.q.bandp.length

section

variable (h : Shape st.links st.msg st.q.bandp (pre ++ post)) (hm : (st.msg mp).norm = st.msg mp)
  (hband : (st.msg mp).bBand < 256) (hemp : post.head? = emp)
include h hm hband hemp

end

theorem msg_setMsg (hmp : mp ∉ pre ++ post) (ha : a ∈ pre ++ post) : (st.setMsg mp m).msg a = st.msg a :=
  update_of_ne (ne_of_mem_of_not_mem ha hmp) _ _

end

end Svr42.Strm
