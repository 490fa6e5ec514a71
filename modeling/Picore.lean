import Picore.Lib.Transition
import Picore.Lib.Memory
import Picore.Lib.Ring
import Picore.Lib.Bits
import Picore.Lib.Fuel
import Picore.Lib.Chain
import Picore.Lib.Bounds
import Picore.Lib.Lock
import Picore.Lib.Crc
import Picore.Lib.CrcBits
import Picore.Lib.Visit
import Picore.Lib.Retry
import Picore.Lib.Search
import Picore.Lib.Reads
import Picore.Task.Basic
import Picore.Task.Schedule
import Picore.Task.Lists
import Picore.Task.Frame
import Picore.Task.Refine
import Picore.Task.Alarm
import Picore.Task.Queues
import Picore.Task.RoundRobin
import Picore.Task.Interleave
import Picore.Task.Reschedule
import Picore.Task.Deadlock
import Picore.Task.Atomic
import Picore.Task.Delay
import Picore.Task.Milliseconds
import Picore.Task.Status
import Picore.Fifo.Basic
import Picore.Fifo.ZeroCopy
import Picore.Fifo.Producers
import Picore.Fifo.Read
import Picore.Fifo.Copy
import Picore.Fifo.Clear
import Picore.Fifo.Partial
import Picore.Fifo.Wakeup
import Picore.Queue.Bounded
import Picore.Queue.Service
import Picore.PixelLed.Basic
import Picore.PixelLed.Frames
import Picore.PixelLed.Updates
import Picore.PixelLed.Pio
import Picore.PixelLed.Wire
import Picore.Cdc.Basic
import Picore.Cdc.Strand
import Picore.Cdc.Flow
import Picore.Uart.Basic
import Picore.Uart.Stream
import Picore.Uart.Interrupt
import Picore.Crc32.Update
import Picore.GpioIrq.Mask
import Picore.BinaryInfo.Basic
import Picore.BinaryInfo.Iterate
import Picore.BinaryInfo.Find
import Picore.BinaryInfo.Names
import Picore.I2c.Bus
import Picore.I2c.Eeprom
import Picore.I2c.EepromPages
import Picore.I2c.EepromTrace
import Picore.I2c.EepromRange
import Picore.I2c.EepromStatus
import Picore.I2c.EepromTarget
import Picore.I2c.EepromStore
import Picore.I2c.Gpio
import Picore.I2c.GpioPlain
import Picore.I2c.Shared
import Picore.I2c.Port
import Picore.I2c.Board
import Picore.Spi.Basic
import Picore.Spi.BitOrder
import Picore.Spi.ChipSelect
import Picore.Modbus.Protocol
import Picore.Modbus.FrameLen
import Picore.Modbus.Crc
import Picore.Modbus.Request
import Picore.Modbus.Objects
import Picore.Modbus.Safety
import Picore.Modbus.Devid
import Picore.Modbus.Paging
import Picore.Modbus.Bus
import Picore.Modbus.Response
import Picore.Modbus.Termination
import Picore.Modbus.Address
import Picore.Modbus.Stream
import Picore.Modbus.Transmit
import Picore.Modbus.Answer
import Picore.Modbus.RoundTrip
import Picore.Modbus.Silence
import Picore.Modbus.Stall
import Picore.Modbus.Timeout
import Picore.Modbus.Range
import Picore.Modbus.Consistent
import Picore.Modbus.Server
import Picore.Modbus.Network
import Picore.Modbus.Replace
import Picore.Modbus.Responder
import Picore.TinyUsb.Serial
import Picore.Cdc.Copies
import Picore.Modbus.Usb
import Picore.Modbus.UsbRefine
