/-
# The Thymio II

The node that scripts are compiled for unless another one is described.

Key definitions: `Node.thymio`.
-/
import RobotScript.Node.Basic

namespace RobotScript.Node
namespace Thymio

/-- The predefined variables. -/
def predefined : List NodeVariable :=
  [⟨"_id", 1⟩, ⟨"event.source", 1⟩, ⟨"event.args", 32⟩, ⟨"_fwversion", 2⟩, ⟨"_productId", 1⟩,
   ⟨"buttons._raw", 5⟩, ⟨"button.backward", 1⟩, ⟨"button.left", 1⟩, ⟨"button.center", 1⟩,
   ⟨"button.forward", 1⟩, ⟨"button.right", 1⟩, ⟨"buttons._mean", 5⟩, ⟨"buttons._noise", 5⟩,
   ⟨"prox.horizontal", 7⟩, ⟨"prox.comm.rx._payloads", 7⟩, ⟨"prox.comm.rx._intensities", 7⟩,
   ⟨"prox.comm.rx", 1⟩, ⟨"prox.comm.tx", 1⟩, ⟨"prox.ground.ambiant", 2⟩,
   ⟨"prox.ground.reflected", 2⟩, ⟨"prox.ground.delta", 2⟩, ⟨"motor.left.target", 1⟩,
   ⟨"motor.right.target", 1⟩, ⟨"_vbat", 2⟩, ⟨"_imot", 2⟩, ⟨"motor.left.speed", 1⟩,
   ⟨"motor.right.speed", 1⟩, ⟨"motor.left.pwm", 1⟩, ⟨"motor.right.pwm", 1⟩, ⟨"_integrator", 2⟩,
   ⟨"acc", 3⟩, ⟨"leds.top", 3⟩, ⟨"leds.bottom.left", 3⟩, ⟨"leds.bottom.right", 3⟩,
   ⟨"leds.circle", 8⟩, ⟨"temperature", 1⟩, ⟨"rc5.address", 1⟩, ⟨"rc5.command", 1⟩,
   ⟨"mic.intensity", 1⟩, ⟨"mic.threshold", 1⟩, ⟨"mic._mean", 1⟩, ⟨"timer.period", 2⟩,
   ⟨"acc._tap", 1⟩, ⟨"sd.present", 1⟩]

/-- The local events. -/
def localEvents : List String :=
  ["button.backward", "button.left", "button.center", "button.forward", "button.right",
   "buttons", "prox", "prox.comm", "tap", "acc", "mic", "sound.finished", "temperature", "rc5",
   "motor", "timer0", "timer1"]

/-- The functions of the firmware. -/
def nativeFunctions : List NativeFunction :=
  [⟨"_system_reboot", []⟩, ⟨"_system_settings_read", [1, 1]⟩, ⟨"_system_settings_write", [1, 1]⟩,
   ⟨"_system_settings_flash", []⟩, ⟨"math.copy", [-1, -1]⟩, ⟨"math.fill", [-1, 1]⟩,
   ⟨"math.addscalar", [-1, -1, 1]⟩, ⟨"math.add", [-1, -1, -1]⟩, ⟨"math.sub", [-1, -1, -1]⟩,
   ⟨"math.mul", [-1, -1, -1]⟩, ⟨"math.div", [-1, -1, -1]⟩, ⟨"math.min", [-1, -1, -1]⟩,
   ⟨"math.max", [-1, -1, -1]⟩, ⟨"math.clamp", [-1, -1, -1, -1]⟩, ⟨"math.dot", [1, -1, -1, 1]⟩,
   ⟨"math.stat", [-1, 1, 1, 1]⟩, ⟨"math.argbounds", [-1, 1, 1]⟩, ⟨"math.sort", [-1]⟩,
   ⟨"math.muldiv", [-1, -1, -1, -1]⟩, ⟨"math.atan2", [-1, -1, -1]⟩, ⟨"math.sin", [-1, -1]⟩,
   ⟨"math.cos", [-1, -1]⟩, ⟨"math.rot2", [2, 2, 1]⟩, ⟨"math.sqrt", [-1, -1]⟩,
   ⟨"math.rand", [-1]⟩, ⟨"_leds.set", [1, 1]⟩, ⟨"sound.record", [1]⟩, ⟨"sound.play", [1]⟩,
   ⟨"sound.replay", [1]⟩, ⟨"sound.system", [1]⟩, ⟨"leds.circle", [1, 1, 1, 1, 1, 1, 1, 1]⟩,
   ⟨"leds.top", [1, 1, 1]⟩, ⟨"leds.bottom.left", [1, 1, 1]⟩, ⟨"leds.bottom.right", [1, 1, 1]⟩,
   ⟨"sound.freq", [1, 1]⟩, ⟨"leds.buttons", [1, 1, 1, 1]⟩,
   ⟨"leds.prox.h", [1, 1, 1, 1, 1, 1, 1, 1]⟩, ⟨"leds.prox.v", [1, 1]⟩, ⟨"leds.rc", [1]⟩,
   ⟨"leds.sound", [1]⟩, ⟨"leds.temperature", [1, 1]⟩, ⟨"sound.wave", [142]⟩,
   ⟨"prox.comm.enable", [1]⟩, ⟨"sd.open", [1, 1]⟩, ⟨"sd.write", [-1, 1]⟩, ⟨"sd.read", [-1, 1]⟩,
   ⟨"sd.seek", [1, 1]⟩, ⟨"_rf.nodeid", [1]⟩, ⟨"_poweroff", []⟩]

end Thymio

/-- The Thymio II. -/
def thymio : Node where
  name := "thymio-II"
  maxVarSize := 620
  predefined := Thymio.predefined
  localEvents := Thymio.localEvents
  nativeFunctions := Thymio.nativeFunctions

end RobotScript.Node
